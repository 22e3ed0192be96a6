import NetCache.Cache.Contract
import NetCache.Lru.Residence

/-!
# Who owns the memory of a cache

Every allocation of a cache belongs to one of its entries, from `create_cache` to `destroy_cache`.

## Accounts

Link nodes, copies of keys and nodes of the policy are as many as the entries at any time, and
`destroy_cache` frees them all, each once (`run_destroyCache`). The refinement says that each entry
has its own three objects; the accounts say that there are no others. Neither alone excludes a leak.
No bound on the limit is needed.

## Buffers

The buffer that `cache_get` returns belongs to the node of the entry, and the caller is not told
when it goes. It stays allocated, with the same bytes, exactly as long as the entry does
(`buffer_lives_iff`): until the key is set or deleted, even to the same value, or the entry is
evicted. Growth of the table relinks the node and does not move it, and neither other keys in its
bucket nor lookups touch it.

## A guarantee for the caller

Whether an entry has been evicted depends on everything that is stored. `buffer_lives_of_moved_le`
gives a condition that the caller can check itself: it adds up the sizes of what it stores and of
what it is given, and as long as the sum and the value fit the limit, the buffer is there.
-/

namespace NetCache

namespace CacheObj

variable {cache cache' : CacheObj} {maxmem : UInt64} {hFn : CStr → UInt64} {l l' : List Entry}
  {key : CStr} {val : Bytes} {valSize : UInt32} {e : Entry}

/-! ## Accounts of a call -/

/-- What a call can do to the heaps of a cache. -/
structure Kept (cache cache' : CacheObj) : Prop where
  /-- Addresses of link nodes are not handed out again. -/
  next_le : cache.links.next ≤ cache'.links.next
  /-- The counter of entries keeps counting the allocations. -/
  balanced : cache.Balanced → cache'.Balanced

theorem Kept.trans {cache'' : CacheObj} (h : cache.Kept cache') (h' : cache'.Kept cache'') :
    cache.Kept cache'' where
  next_le := h.next_le.trans h'.next_le
  balanced hb := h'.balanced (h.balanced hb)

theorem Shrunk.kept (h : cache.Shrunk cache') : cache.Kept cache' := ⟨h.next.ge, h.balanced⟩

theorem cacheSet_kept (hslot : cache.SlotEmpty)
    (h : cache.cacheSet key val valSize = some cache') : cache.Kept cache' := by
  obtain ⟨initLink, hquery, h⟩ := Option.bind_eq_some_iff.mp h
  obtain ⟨cache₁, hdel, h⟩ := Option.bind_eq_some_iff.mp h
  obtain ⟨⟨cache₂, add⟩, hevict, h⟩ := Option.bind_eq_some_iff.mp h
  have hshrunk := (delLink_shrunk hdel).trans (shouldAddEvictDeletions_shrunk hevict)
  cases add with
  | false =>
    obtain rfl := Option.some.inj h
    exact hshrunk.kept
  | true =>
    obtain ⟨-, -, hnext, hbal⟩ := addToCache_grown h fun c newItem linkp hmake hquery' ↦
      hslot key val valSize initLink cache₁ cache₂ c newItem linkp hquery hdel hevict hmake hquery'
    exact hshrunk.kept.trans ⟨hnext, hbal⟩

theorem cacheGet_eq {r : Option Bytes × UInt32} (h : cache.cacheGet key = some (cache', r)) :
    ∃ policy, cache' = { cache with evicPolicy := policy } := by
  obtain ⟨p, -, h⟩ := Option.bind_eq_some_iff.mp h
  obtain ⟨q, -, h⟩ := Option.bind_eq_some_iff.mp h
  cases q with
  | none =>
    obtain ⟨rfl, -⟩ := Prod.mk.inj (Option.some.inj h)
    exact ⟨cache.evicPolicy, rfl⟩
  | some a =>
    obtain ⟨o, -, h⟩ := Option.bind_eq_some_iff.mp h
    obtain ⟨policy, -, h⟩ := Option.bind_eq_some_iff.mp h
    obtain ⟨rfl, -⟩ := Prod.mk.inj (Option.some.inj h)
    exact ⟨policy, rfl⟩

theorem cacheGet_kept {r : Option Bytes × UInt32} (h : cache.cacheGet key = some (cache', r)) :
    cache.Kept cache' := by
  obtain ⟨policy, rfl⟩ := cacheGet_eq h
  exact ⟨le_rfl, fun hb ↦ ⟨hb.links, hb.keys⟩⟩

theorem balanced_createCacheIn {links : Heap LinkObj} {keys : Heap CStr} (hlinks : links.live = ∅)
    (hkeys : keys.live = ∅) (infos : Heap (PinfoObj Addr)) (maxmem : UInt64)
    (hFn : Option (CStr → UInt64)) : (createCacheIn links keys infos maxmem hFn).Balanced where
  links := Finset.card_eq_zero.mpr hlinks
  keys := Finset.card_eq_zero.mpr hkeys

theorem balanced_createCache (maxmem : UInt64) (hFn : Option (CStr → UInt64)) :
    (createCache maxmem hFn).Balanced :=
  balanced_createCacheIn Heap.live_empty Heap.live_empty Heap.empty maxmem hFn

/-! ## A whole life -/

theorem Rep.card_live_infos (hr : cache.Rep maxmem hFn l) :
    cache.evicPolicy.infos.live.card = cache.numElements := by
  have hlive : cache.evicPolicy.infos.live = ((l.map Entry.node).map Prod.fst).toFinset := by
    ext a
    rw [Heap.mem_live, List.mem_toFinset]
    constructor
    · rintro ⟨x, hx⟩
      exact hr.policy.live a x hx
    · intro ha
      obtain ⟨n, hn, rfl⟩ := List.mem_map.mp ha
      obtain ⟨x, hx, -⟩ := hr.policy.dll.seg_down.cell hn
      exact ⟨x, hx⟩
  rw [hlive, List.toFinset_card_of_nodup hr.policy.nodup, List.length_map, List.length_map,
    hr.count]

theorem Rep.link_lt (hr : cache.Rep maxmem hFn l) (he : e ∈ l) : e.link < cache.links.next := by
  obtain ⟨ch, hc⟩ := hr.chained
  obtain ⟨o, ho, -⟩ := hc.link_cell he
  exact Heap.lt_next ho

/-- With balanced accounts, an allocated link node is that of an entry. -/
theorem Rep.exists_entry (hr : cache.Rep maxmem hFn l) (hb : cache.Balanced) {a : Addr}
    {o : LinkObj} (ho : cache.links.cell a = some o) : ∃ e ∈ l, e.link = a := by
  obtain ⟨ch, hc⟩ := hr.chained
  refine List.mem_map.mp (Heap.mem_of_card_live hr.distinct.link ?_ ?_ ho)
  · intro b hb
    obtain ⟨e, he, rfl⟩ := List.mem_map.mp hb
    obtain ⟨o', ho', -⟩ := hc.link_cell he
    exact ⟨o', ho'⟩
  · rw [hb.links, hr.count, List.length_map]

/-- A call keeps the accounts. An entry that is left keeps its nodes, and one that is stored gets
a link node that no entry had before. -/
theorem Rep.exec_entries (hr : cache.Rep maxmem hFn l) (call : Lru.Call CStr Value) :
    ∃ cache' answer l', cache.exec call = some (cache', answer) ∧ cache'.Rep maxmem hFn l' ∧
      cache.Kept cache' ∧
      l'.map Entry.kv = (Lru.step (Lru.word Value.size maxmem) (l.map Entry.kv) call).1 ∧
      ∀ e ∈ l', e ∈ l ∧ ¬ call.Drops e.key ∨ call.Drops e.key ∧ cache.links.next ≤ e.link := by
  cases call with
  | set key v =>
    obtain ⟨cache', l', hset, hr', hl', hentries⟩ :=
      hr.cacheSet_entries key v.bytes v.size v.toNat_size.le
    rw [Value.ofBuffer_bytes] at hl' hentries
    refine ⟨cache', .void, l', by rw [CacheObj.exec, hset]; rfl, hr',
      cacheSet_kept hr.slotEmpty hset, hl', fun e he ↦ ?_⟩
    rcases hentries e he with ⟨hmem, hne⟩ | ⟨hkv, hlink⟩
    · exact Or.inl ⟨hmem, Ne.symm hne⟩
    · exact Or.inr ⟨(congrArg Prod.fst hkv).symm, hlink.ge⟩
  | get key =>
    obtain ⟨cache', l', hget, hr', hl', hperm, -⟩ := hr.cacheGet_entries key
    refine ⟨cache', _, l', by rw [CacheObj.exec, hget]; rfl, hr', cacheGet_kept hget, ?_,
      fun e he ↦ Or.inl ⟨hperm.mem_iff.mp he, id⟩⟩
    rw [Lru.step_get, hl']
  | delete key =>
    obtain ⟨cache', hdel, hr'⟩ := hr.cacheDelete key
    refine ⟨cache', .void, without key l, by rw [CacheObj.exec, hdel]; rfl, hr',
      (cacheDelete_shrunk hdel).kept, map_kv_without, fun e he ↦ ?_⟩
    obtain ⟨hmem, hne⟩ := mem_without.mp he
    exact Or.inl ⟨hmem, Ne.symm hne⟩

/-- What a run leaves of an entry: it is still there, in its nodes, when its key is and no call
dropped it. -/
theorem Rep.run_entries (hr : cache.Rep maxmem hFn l) (calls : List (Lru.Call CStr Value)) :
    ∃ cache' answers l', cache.run calls = some (cache', answers) ∧ cache'.Rep maxmem hFn l' ∧
      cache.Kept cache' ∧
      l'.map Entry.kv = (Lru.run (Lru.word Value.size maxmem) (l.map Entry.kv) calls).1 ∧
      (∀ e ∈ l', e ∈ l ∨ cache.links.next ≤ e.link) ∧
      ∀ e ∈ l, e ∈ l' ↔ (∀ call ∈ calls, ¬ call.Drops e.key) ∧ e.key ∈ l'.map Entry.key := by
  induction calls generalizing cache l with
  | nil =>
    exact ⟨cache, [], l, rfl, hr, ⟨le_rfl, id⟩, rfl, fun e he ↦ Or.inl he,
      fun e he ↦ iff_of_true he ⟨by simp, List.mem_map_of_mem he⟩⟩
  | cons call calls ih =>
    obtain ⟨cache₁, answer, l₁, hexec, hr₁, hk₁, hl₁, hentries⟩ := hr.exec_entries call
    obtain ⟨cache', answers, l', hrun, hr', hk', hl', hold', hiff'⟩ := ih hr₁
    refine ⟨cache', answer :: answers, l', ?_, hr', hk₁.trans hk', ?_, fun e he ↦ ?_,
      fun e he ↦ ?_⟩
    · rw [CacheObj.run, hexec]
      simp only [Option.bind_eq_bind, Option.bind_some, hrun]
    · rw [hl', hl₁]
      rfl
    · rcases hold' e he with hmem | hfresh
      · rcases hentries e hmem with ⟨hmem', -⟩ | ⟨-, hlink⟩
        · exact Or.inl hmem'
        · exact Or.inr hlink
      · exact Or.inr (hk₁.next_le.trans hfresh)
    · have hlink : e.link < cache.links.next := hr.link_lt he
      rw [List.forall_mem_cons]
      by_cases hmem : e ∈ l₁
      · rw [hiff' e hmem]
        rcases hentries e hmem with ⟨-, hcall⟩ | ⟨-, hfresh⟩
        · simp only [hcall, not_false_eq_true, true_and]
        · exact absurd hlink hfresh.not_gt
      · -- the entry is gone, and its key only comes back with a `set`
        refine iff_of_false (fun he' ↦ ?_) ?_
        · rcases hold' e he' with hmem' | hfresh
          · exact hmem hmem'
          · exact absurd (hlink.trans_le hk₁.next_le) hfresh.not_gt
        · rintro ⟨⟨hcall, hcalls⟩, hkey⟩
          rw [← Entry.keys_map_kv, hl'] at hkey
          refine Lru.notMem_keys_run (fun hkey₁ ↦ ?_) hcalls hkey
          rw [Entry.keys_map_kv] at hkey₁
          obtain ⟨e₁, he₁, heq⟩ := List.mem_map.mp hkey₁
          rcases hentries e₁ he₁ with ⟨hold, -⟩ | ⟨hdrops, -⟩
          · exact hmem (hr.distinct.eq_of_key hold he heq ▸ he₁)
          · exact hcall (heq ▸ hdrops)

/-- The allocations of a cache are those of its entries, and `destroy_cache` frees them all, each
once. -/
structure Owned (cache : CacheObj) : Prop where
  /-- A link node for each entry. -/
  links : cache.links.live.card = cache.numElements
  /-- A copy of the key for each entry. -/
  keys : cache.keys.live.card = cache.numElements
  /-- A node of the policy for each entry. -/
  infos : cache.evicPolicy.infos.live.card = cache.numElements
  /-- Nothing is left of it in the end. -/
  freed : ∃ links keys infos, cache.destroyCache = some (links, keys, infos) ∧
    links.live = ∅ ∧ keys.live = ∅ ∧ infos.live = ∅

theorem Rep.owned (hr : cache.Rep maxmem hFn l) (hb : cache.Balanced) : cache.Owned := by
  obtain ⟨cache', infos, hloop, hr', hdestroy, hinfos⟩ := hr.destroyCache_empties
  have hshrunk : cache.Shrunk cache' :=
    foldlM_induction Shrunk.refl (fun _ _ _ h₁ h₂ ↦ h₁.trans h₂)
      (fun _ _ _ hstep ↦ destroyBucket_shrunk hstep) hloop
  have hb' := hshrunk.balanced hb
  have hzero : cache'.numElements = 0 := hr'.count
  refine ⟨hb.links, hb.keys, hr.card_live_infos, cache'.links, cache'.keys, infos, hdestroy, ?_, ?_,
    ?_⟩
  · exact Finset.card_eq_zero.mp (hb'.links.trans hzero)
  · exact Finset.card_eq_zero.mp (hb'.keys.trans hzero)
  · refine Finset.eq_empty_iff_forall_notMem.mpr fun a ha ↦ ?_
    obtain ⟨x, hx⟩ := Heap.mem_live.mp ha
    rw [hinfos a] at hx
    exact absurd hx (by simp)

/-- **Nothing is lost, and nothing is freed twice**: after any calls to a new cache, whatever its
limit, the link nodes, the copies of keys and the nodes of the policy that are allocated are as
many as the entries, and `destroy_cache` runs to its end and leaves none of them. -/
theorem run_destroyCache (maxmem : UInt64) (hFn : Option (CStr → UInt64))
    (calls : List (Lru.Call CStr Value)) :
    ∃ cache answers links keys infos,
      (createCache maxmem hFn).run calls = some (cache, answers) ∧
      cache.links.live.card = cache.numElements ∧ cache.keys.live.card = cache.numElements ∧
      cache.evicPolicy.infos.live.card = cache.numElements ∧
      cache.destroyCache = some (links, keys, infos) ∧
      links.live = ∅ ∧ keys.live = ∅ ∧ infos.live = ∅ := by
  obtain ⟨cache, answers, l, hrun, hr, hk, -⟩ :=
    (rep_createCache maxmem hFn).run_entries calls
  have howned := hr.owned (hk.balanced (balanced_createCache maxmem hFn))
  obtain ⟨links, keys, infos, hfreed⟩ := howned.freed
  exact ⟨cache, answers, links, keys, infos, hrun, howned.links, howned.keys, howned.infos, hfreed⟩

/-! ## The buffer that `cache_get` returns

A buffer is known by its node. It is the node of the entry at the start, and of no other entry
later, so asking whether the node is alive is asking whether that very entry is. -/

/-- The link node whose buffer `cache_get` returns for the key, `none` for `NULL`. The buffer is
allocated with the node's item and freed by `del_link` with the node; no function frees or moves
it elsewhere. -/
def bufferNode (cache : CacheObj) (key : CStr) : Option Addr :=
  (cache.querryHash key).bind fun p ↦ (cache.load p).join

/-- The buffer of the node is allocated, and holds the bytes. -/
def HoldsBuffer (cache : CacheObj) (a : Addr) (val : Bytes) : Prop :=
  ∃ o, cache.links.cell a = some o ∧ o.data.val = val

theorem Rep.bufferNode_eq (hr : cache.Rep maxmem hFn l) {a : Addr} :
    cache.bufferNode key = some a ↔ ∃ e ∈ l, e.key = key ∧ e.link = a := by
  obtain ⟨ch, hc⟩ := hr.chained
  by_cases hk : key ∈ l.map Entry.key
  · obtain ⟨e, he, rfl⟩ := List.mem_map.mp hk
    obtain ⟨pre, post, -, hquery, hload⟩ := hc.querryHash_of_mem he
    rw [bufferNode, hquery, Option.bind_some, hload, Option.join_some, Option.some.injEq]
    constructor
    · rintro rfl
      exact ⟨e, he, rfl, rfl⟩
    · rintro ⟨e', he', hkey, rfl⟩
      rw [hr.distinct.eq_of_key he' he hkey]
  · obtain ⟨hquery, hload⟩ := hc.querryHash_of_notMem hk
    rw [bufferNode, hquery, Option.bind_some, hload, Option.join_some]
    refine iff_of_false (by simp) ?_
    rintro ⟨e, he, rfl, -⟩
    exact hk (List.mem_map_of_mem he)

theorem Rep.holdsBuffer_iff (hr : cache.Rep maxmem hFn l) (hb : cache.Balanced) (he : e ∈ l)
    {calls : List (Lru.Call CStr Value)} {answers : List Answer}
    (hrun : cache.run calls = some (cache', answers)) :
    cache'.HoldsBuffer e.link e.val.bytes ↔
      (∀ call ∈ calls, ¬ call.Drops e.key) ∧ cache'.Holds e.key := by
  obtain ⟨_, _, l', hrun', hr', hk', -, hold, hiff⟩ := hr.run_entries calls
  obtain ⟨rfl, -⟩ := Prod.mk.inj (Option.some.inj (hrun.symm.trans hrun'))
  rw [hr'.holds_iff, Entry.keys_map_kv, ← hiff e he]
  constructor
  · rintro ⟨o, ho, -⟩
    obtain ⟨e', he', hlink⟩ := hr'.exists_entry (hk'.balanced hb) ho
    rcases hold e' he' with hmem | hfresh
    · rwa [← hr.distinct.eq_of_link hmem he hlink]
    · exact absurd (hr.link_lt he) (hlink ▸ hfresh).not_gt
  · intro he'
    obtain ⟨ch, hc⟩ := hr'.chained
    obtain ⟨o, ho, hdata⟩ := hc.link_cell he'
    exact ⟨o, ho, by rw [hdata]; rfl⟩

/-- What a lookup that succeeds leaves behind: the entry, its buffer and its place in front. -/
theorem Rep.cacheGet_buffer {cache₁ : CacheObj} {a : Addr} {n : UInt32}
    (hr : cache.Rep maxmem hFn l) (hbuf : cache.bufferNode key = some a)
    (hget : cache.cacheGet key = some (cache₁, some val, n)) :
    ∃ e rest, cache₁.Rep maxmem hFn (e :: rest) ∧ cache.Kept cache₁ ∧
      (e :: rest).map Entry.kv = Lru.touch key (l.map Entry.kv) ∧
      Lru.find key (l.map Entry.kv) = some e.val ∧
      e.key = key ∧ e.link = a ∧ e.val.bytes = val ∧ e.val.size = n := by
  obtain ⟨e, he, rfl, rfl⟩ := hr.bufferNode_eq.mp hbuf
  obtain ⟨_, l₁, hget', hr₁, hl₁, hperm, -⟩ := hr.cacheGet_entries e.key
  have hfind : Lru.find e.key (l.map Entry.kv) = some e.val :=
    (Lru.find_eq_some_iff hr.nodup_keys).mpr (List.mem_map_of_mem he)
  rw [hfind] at hget'
  obtain ⟨rfl, h⟩ := Prod.mk.inj (Option.some.inj (hget.symm.trans hget'))
  obtain ⟨hval, hn⟩ := Prod.mk.inj h
  -- the first entry has the key, and there is only one with it
  have hfront := hl₁.trans (Lru.touch_of_some hfind)
  obtain ⟨e₁, rest, rfl, hkv, -⟩ := List.map_eq_cons_iff.mp hfront
  obtain rfl : e₁ = e :=
    hr₁.distinct.eq_of_key List.mem_cons_self (hperm.mem_iff.mpr he) (congrArg Prod.fst hkv)
  exact ⟨e₁, rest, hr₁, cacheGet_kept hget, hl₁, hfind, rfl, rfl, (Option.some.inj hval).symm,
    hn.symm⟩

section Buffer

variable {cache₁ : CacheObj} {hFn : Option (CStr → UInt64)}
  {calls calls' : List (Lru.Call CStr Value)} {answers answers' : List Answer} {a : Addr}
  {n : UInt32}

theorem rep_of_run_of_le (hmax : maxmem.toNat ≤ 2 ^ 64 - 2 ^ 32)
    (hrun : (createCache maxmem hFn).run calls = some (cache, answers)) :
    ∃ l, cache.Rep maxmem (hFn.getD defHashFn) l ∧ cache.Balanced ∧
      l.map Entry.kv = ((reference maxmem).run calls).1.entries ∧
      Lru.total valueSize (l.map Entry.kv) ≤ maxmem.toNat := by
  obtain ⟨_, _, l, hrun', hr, hk, hl, -⟩ := (rep_createCache maxmem hFn).run_entries calls
  obtain ⟨rfl, -⟩ := Prod.mk.inj (Option.some.inj (hrun.symm.trans hrun'))
  have hword : Lru.run (Lru.word Value.size maxmem) [] calls = _ :=
    Lru.run_word_eq hmax (Nat.zero_le _) Lru.nodup_keys_nil calls
  rw [toNat_size_eq] at hword
  have hstore : l.map Entry.kv = ((reference maxmem).run calls).1.entries := by
    rw [(Lru.Store.run_eq calls).1, hl]
    exact congrArg Prod.fst hword
  have hle := ((reference maxmem).run calls).1.total_le
  rw [← hstore, Lru.Store.run_maxmem] at hle
  exact ⟨l, hr, hk.balanced (balanced_createCache maxmem hFn), hstore, hle⟩

theorem Rep.run_of_le {hFn : CStr → UInt64} (hmax : maxmem.toNat ≤ 2 ^ 64 - 2 ^ 32)
    (hr : cache.Rep maxmem hFn l) (hle : Lru.total valueSize (l.map Entry.kv) ≤ maxmem.toNat)
    (hrun : cache.run calls = some (cache', answers)) :
    ∃ l', cache'.Rep maxmem hFn l' ∧
      l'.map Entry.kv = (Lru.run (Lru.exact valueSize maxmem.toNat) (l.map Entry.kv) calls).1 ∧
      answers = (Lru.run (Lru.exact valueSize maxmem.toNat) (l.map Entry.kv) calls).2.map
        Answer.ofReply := by
  obtain ⟨_, l', hrun', hr', hl'⟩ := hr.run calls
  obtain ⟨rfl, rfl⟩ := Prod.mk.inj (Option.some.inj (hrun.symm.trans hrun'))
  rw [← toNat_size_eq] at hle ⊢
  rw [← Lru.run_word_eq hmax hle hr.nodup_keys calls]
  exact ⟨l', hr', hl', rfl⟩

theorem exists_buffer {v : Value} (hmax : maxmem.toNat ≤ 2 ^ 64 - 2 ^ 32)
    (hrun : (createCache maxmem hFn).run calls = some (cache, answers)) (key : CStr)
    (hfind : Lru.find key ((reference maxmem).run calls).1.entries = some v)
    (calls' : List (Lru.Call CStr Value)) :
    ∃ a cache₁ cache', cache.bufferNode key = some a ∧
      cache.cacheGet key = some (cache₁, some v.bytes, v.size) ∧
      cache₁.run calls' = some (cache', (Lru.run (Lru.exact valueSize maxmem.toNat)
        (Lru.touch key ((reference maxmem).run calls).1.entries) calls').2.map
          Answer.ofReply) := by
  obtain ⟨l, hr, -, hl, hle⟩ := rep_of_run_of_le hmax hrun
  rw [← hl] at hfind ⊢
  obtain ⟨cache₁, l₁, hget, hr₁, hl₁⟩ := hr.cacheGet key
  rw [hfind] at hget
  obtain ⟨e, he, heq⟩ := List.mem_map.mp (Lru.mem_of_find hfind)
  obtain ⟨cache', _, hrun', -⟩ := hr₁.run calls'
  rw [← hl₁]
  refine ⟨e.link, cache₁, cache', hr.bufferNode_eq.mpr ⟨e, he, congrArg Prod.fst heq, rfl⟩, hget,
    ?_⟩
  have hle₁ : Lru.total valueSize (l₁.map Entry.kv) ≤ maxmem.toNat := by
    rw [hl₁]
    exact Lru.total_touch_le.trans hle
  obtain ⟨-, -, -, hanswers⟩ := hr₁.run_of_le hmax hle₁ hrun'
  rw [hrun', hanswers]

/-- **The life of a returned buffer.** What `cache_get` returned is still allocated after further
calls, with the same bytes, exactly when none of them set or deleted the key and the reference
store still has it: growth of the table, other keys in its bucket and lookups never touch it. -/
theorem buffer_lives_iff (hmax : maxmem.toNat ≤ 2 ^ 64 - 2 ^ 32)
    (hrun : (createCache maxmem hFn).run calls = some (cache, answers))
    (hbuf : cache.bufferNode key = some a)
    (hget : cache.cacheGet key = some (cache₁, some val, n))
    (hrun' : cache₁.run calls' = some (cache', answers')) :
    cache'.HoldsBuffer a val ↔ (∀ call ∈ calls', ¬ call.Drops key) ∧
      key ∈ Lru.keys ((reference maxmem).run (calls ++ .get key :: calls')).1.entries := by
  obtain ⟨l, hr, hb, hl, hle⟩ := rep_of_run_of_le hmax hrun
  obtain ⟨e, rest, hr₁, hk₁, hl₁, -, rfl, rfl, rfl, -⟩ := hr.cacheGet_buffer hbuf hget
  rw [hr₁.holdsBuffer_iff (hk₁.balanced hb) List.mem_cons_self hrun']
  have hle₁ : Lru.total valueSize ((e :: rest).map Entry.kv) ≤ maxmem.toNat := by
    rw [hl₁]
    exact Lru.total_touch_le.trans hle
  obtain ⟨l', hr', hl', -⟩ := hr₁.run_of_le hmax hle₁ hrun'
  -- the reference store makes the same calls
  have hstore : l'.map Entry.kv
      = ((reference maxmem).run (calls ++ .get e.key :: calls')).1.entries := by
    rw [(Lru.Store.run_eq (calls ++ .get e.key :: calls')).1, hl', hl₁, hl,
      (Lru.Store.run_eq calls).1, Lru.run_append, Lru.run_cons, Lru.step_get]
    rfl
  rw [← hstore, hr'.holds_iff]

/-- A value that fills the limit takes the buffer of `a` away. -/
theorem buffer_lives_iff_example : ∃ cache answers a cache₁ cache' answers',
    (createCache 4 none).run [.set aKey oneByte] = some (cache, answers) ∧
      cache.bufferNode aKey = some a ∧
      cache.cacheGet aKey = some (cache₁, some [1], 1) ∧
      cache₁.run [.set bKey fourBytes] = some (cache', answers') ∧
      ¬ cache'.HoldsBuffer a [1] := by
  have hmax : (4 : UInt64).toNat ≤ 2 ^ 64 - 2 ^ 32 := by decide
  obtain ⟨cache, l, hrun, -⟩ := run_createCache_of_le hmax none [.set aKey oneByte]
  obtain ⟨a, cache₁, cache', hbuf, hget, hrun'⟩ :=
    exists_buffer (v := oneByte) hmax hrun aKey rfl [.set bKey fourBytes]
  refine ⟨cache, _, a, cache₁, cache', _, hrun, hbuf, hget, hrun', ?_⟩
  refine fun hbuffer ↦ absurd ((buffer_lives_iff hmax hrun hbuf hget hrun').mp hbuffer).2 ?_
  decide

/-- The bytes that an answer brings the caller. -/
def Answer.bytes : Answer → ℕ
  | void => 0
  | value _ valSize => valSize.toNat

/-- The bytes moved by calls and their answers. -/
def movedBytes (calls : List (Lru.Call CStr Value)) (answers : List Answer) : ℕ :=
  (calls.map (Lru.Call.bytes valueSize)).sum + (answers.map Answer.bytes).sum

theorem movedBytes_eq (calls : List (Lru.Call CStr Value)) (replies : List (Lru.Reply Value)) :
    movedBytes calls (replies.map Answer.ofReply) = Lru.moved valueSize calls replies := by
  rw [movedBytes, Lru.moved, List.map_map]
  refine congrArg _ (congrArg _ (List.map_congr_left fun r _ ↦ ?_))
  cases r with
  | done => rfl
  | miss => rfl
  | hit v => exact Value.toNat_size v

/-- **How long a returned buffer lives for certain**: until the caller sets or deletes the key, or
has moved more bytes through the cache than the limit leaves beside the value. -/
theorem buffer_lives_of_moved_le (hmax : maxmem.toNat ≤ 2 ^ 64 - 2 ^ 32)
    (hrun : (createCache maxmem hFn).run calls = some (cache, answers))
    (hbuf : cache.bufferNode key = some a)
    (hget : cache.cacheGet key = some (cache₁, some val, n))
    (hrun' : cache₁.run calls' = some (cache', answers'))
    (hcalls : ∀ call ∈ calls', ¬ call.Drops key)
    (hle : movedBytes calls' answers' + n.toNat ≤ maxmem.toNat) :
    cache'.HoldsBuffer a val := by
  obtain ⟨l, hr, hb, hl, htotal⟩ := rep_of_run_of_le hmax hrun
  obtain ⟨e, rest, hr₁, hk₁, hl₁, hfind, rfl, rfl, rfl, rfl⟩ := hr.cacheGet_buffer hbuf hget
  rw [hr₁.holdsBuffer_iff (hk₁.balanced hb) List.mem_cons_self hrun']
  have htotal₁ : Lru.total valueSize ((e :: rest).map Entry.kv) ≤ maxmem.toNat := by
    rw [hl₁]
    exact Lru.total_touch_le.trans htotal
  obtain ⟨l', hr', hl', rfl⟩ := hr₁.run_of_le hmax htotal₁ hrun'
  rw [movedBytes_eq, Value.toNat_size, hl₁] at hle
  have hstays := Lru.find_run_of_moved_le hr.nodup_keys hfind calls' hcalls hle
  rw [← hl₁, ← hl'] at hstays
  exact ⟨hcalls, (hr'.holds_iff e.key).mpr (Lru.mem_keys_of_mem (Lru.mem_of_find hstays))⟩

/-- One byte more, and it stays. -/
theorem buffer_lives_of_moved_le_example : ∃ cache answers a cache₁ cache' answers',
    (createCache 5 none).run [.set aKey oneByte] = some (cache, answers) ∧
      cache.bufferNode aKey = some a ∧
      cache.cacheGet aKey = some (cache₁, some [1], 1) ∧
      cache₁.run [.set bKey fourBytes] = some (cache', answers') ∧
      cache'.HoldsBuffer a [1] := by
  have hmax : (5 : UInt64).toNat ≤ 2 ^ 64 - 2 ^ 32 := by decide
  obtain ⟨cache, l, hrun, -⟩ := run_createCache_of_le hmax none [.set aKey oneByte]
  obtain ⟨a, cache₁, cache', hbuf, hget, hrun'⟩ :=
    exists_buffer (v := oneByte) hmax hrun aKey rfl [.set bKey fourBytes]
  refine ⟨cache, _, a, cache₁, cache', _, hrun, hbuf, hget, hrun', ?_⟩
  refine buffer_lives_of_moved_le hmax hrun hbuf hget hrun' ?_ (by decide)
  simp [Lru.Call.Drops, aKey, bKey]

end Buffer

end CacheObj

end NetCache
