import NetCache.Cache.Refinement

/-!
# The contract of the cache

What a caller of `cache.h` may rely on, for every cache reachable from `create_cache`.

* The answers are those of the reference LRU store (`run_eq_store`).
* The two structures of the cache stay coupled (`run_invariant`).
* While everything fits, the cache is a dictionary (`run_eq_dictionary`).
* After a row of sets, what is left is the longest suffix that fits (`run_row_of_sets`).
* A refused set is invisible exactly when its key is not stored (`refused_set_sameView_iff`).

## The limit

A limit of at most `2 ^ 64 - 2 ^ 32` leaves room for one more value below `2 ^ 64`, so that no
counter wraps. The bound is needed where exact sums are promised, and only there.

## Reachable caches

A cache is reachable when some calls lead to it from `create_cache`, so the statements are about
runs, and the invariant of the refinement appears in none of them. What they say of a cache is what
its functions answer, and the counters and heaps that its structure shows.

## What a caller can observe

Besides what keys read as, a caller learns the space used and, from what is evicted later, the order
of use. `SameView` compares these three. For reachable caches it determines the keys, the values and
their order (`Rep.sameView_iff`), so two caches with the same view answer all further calls alike if
their limits agree.
-/

namespace NetCache

namespace CacheObj

variable {cache cache' : CacheObj} {maxmem : UInt64} {hFn : CStr → UInt64} {l l' : List Entry}

/-! ## What a caller can observe -/

/-- What `cache_get` would return for a key. -/
def reads (cache : CacheObj) (key : CStr) : Option (Option Bytes × UInt32) :=
  (cache.cacheGet key).map Prod.snd

/-- The keys in the order in which they would be evicted: those of the nodes of the policy, from
`bottom` along `high`. -/
def evictionOrder (cache : CacheObj) : Option (List CStr) := do
  let ids ← cache.evicPolicy.makeItemArray cache.numElements cache.evicPolicy.bottom
  ids.mapM cache.keys.read

/-- Whether the key is stored: its location is not empty. -/
def Holds (cache : CacheObj) (key : CStr) : Prop :=
  ∃ p a, cache.querryHash key = some p ∧ cache.load p = some (some a)

/-- Two caches that no caller can tell apart, other than by their limits. -/
structure SameView (cache cache' : CacheObj) : Prop where
  /-- Every key reads the same. -/
  reads : ∀ key, cache.reads key = cache'.reads key
  /-- The space used is the same. -/
  space : cache.cacheSpaceUsed = cache'.cacheSpaceUsed
  /-- The eviction order is the same. -/
  order : cache.evictionOrder = cache'.evictionOrder

theorem Rep.reads_eq (hr : cache.Rep maxmem hFn l) (key : CStr) :
    cache.reads key = some ((Lru.find key (l.map Entry.kv)).map Value.bytes,
      ((Lru.find key (l.map Entry.kv)).map Value.size).getD 0) := by
  obtain ⟨cache', l', hget, -⟩ := hr.cacheGet key
  rw [reads, hget, Option.map_some]

theorem Rep.evictionOrder_eq (hr : cache.Rep maxmem hFn l) :
    cache.evictionOrder = some (l.reverse.map Entry.key) := by
  obtain ⟨ch, hc⟩ := hr.chained
  have hlen : cache.numElements = (l.map Entry.node).reverse.length := by
    rw [hr.count, List.length_reverse, List.length_map]
  have harr := PolicyObj.makeItemArray_spec hr.policy.dll.seg_up hlen.le
  rw [List.take_of_length_le hlen.ge, ← List.map_reverse, List.map_map] at harr
  have hread : ∀ r : List Entry, (∀ e ∈ r, cache.keys.cell e.keyPtr = some e.key) →
      (r.map Entry.keyPtr).mapM cache.keys.read = some (r.map Entry.key) := by
    intro r hcell
    induction r with
    | nil => rfl
    | cons e r ih =>
      have htail := ih fun e' he' ↦ hcell e' (List.mem_cons_of_mem _ he')
      simp only [List.map_cons, List.mapM_cons, Heap.read_eq (hcell e List.mem_cons_self), htail,
        Option.bind_eq_bind, Option.bind_some]
      rfl
  rw [evictionOrder, harr]
  exact hread l.reverse fun e he ↦ hc.key_cell e (List.mem_reverse.mp he)

theorem Rep.holds_iff (hr : cache.Rep maxmem hFn l) (key : CStr) :
    cache.Holds key ↔ key ∈ Lru.keys (l.map Entry.kv) := by
  obtain ⟨ch, hc⟩ := hr.chained
  rw [Entry.keys_map_kv]
  constructor
  · rintro ⟨p, a, hquery, hload⟩
    by_contra hk
    obtain ⟨hquery', hload'⟩ := hc.querryHash_of_notMem hk
    obtain rfl : _ = p := Option.some.inj (hquery'.symm.trans hquery)
    rw [hload'] at hload
    simp at hload
  · intro hk
    obtain ⟨e, he, rfl⟩ := List.mem_map.mp hk
    obtain ⟨pre, post, -, hquery, hload⟩ := hc.querryHash_of_mem he
    exact ⟨_, _, hquery, hload⟩

theorem Rep.sameView {maxmem' : UInt64} {hFn' : CStr → UInt64} (hr : cache.Rep maxmem hFn l)
    (hr' : cache'.Rep maxmem' hFn' l') (h : l.map Entry.kv = l'.map Entry.kv) :
    cache.SameView cache' where
  reads key := by rw [hr.reads_eq, hr'.reads_eq, h]
  space := by rw [cacheSpaceUsed, cacheSpaceUsed, hr.used, hr'.used, h]
  order := by
    have hkeys : l.map Entry.key = l'.map Entry.key := by
      rw [← Entry.keys_map_kv, ← Entry.keys_map_kv, h]
    rw [hr.evictionOrder_eq, hr'.evictionOrder_eq, List.map_reverse, List.map_reverse, hkeys]

/-- The view determines the entries and their order. -/
theorem Rep.sameView_iff {maxmem' : UInt64} {hFn' : CStr → UInt64} (hr : cache.Rep maxmem hFn l)
    (hr' : cache'.Rep maxmem' hFn' l') :
    cache.SameView cache' ↔ l.map Entry.kv = l'.map Entry.kv := by
  refine ⟨?_, hr.sameView hr'⟩
  intro h
  apply Lru.ext_of_find hr.nodup_keys
  · have horder := h.order
    rw [hr.evictionOrder_eq, hr'.evictionOrder_eq, Option.some.injEq, List.map_reverse,
      List.map_reverse, List.reverse_inj] at horder
    rw [Entry.keys_map_kv, Entry.keys_map_kv, horder]
  · intro key
    have hreads := h.reads key
    rw [hr.reads_eq, hr'.reads_eq, Option.some.injEq, Prod.mk.injEq] at hreads
    exact Option.map_injective (fun v v' hv ↦ Value.ext hv) hreads.1

theorem rep_of_run {hFn : Option (CStr → UInt64)} {calls : List (Lru.Call CStr Value)}
    {answers : List Answer} (hrun : (createCache maxmem hFn).run calls = some (cache, answers)) :
    ∃ l, cache.Rep maxmem (hFn.getD defHashFn) l := by
  obtain ⟨cache', l', hrun', hr', -⟩ := (rep_createCache maxmem hFn).run calls
  obtain ⟨rfl, -⟩ := Prod.mk.inj (Option.some.inj (hrun.symm.trans hrun'))
  exact ⟨l', hr'⟩

theorem reads_of_cacheSet {hFn : Option (CStr → UInt64)} {calls : List (Lru.Call CStr Value)}
    {answers : List Answer} {cache' : CacheObj} {key : CStr} {v : Value}
    (hrun : (createCache maxmem hFn).run calls = some (cache, answers))
    (hset : cache.cacheSet key v.bytes v.size = some cache') (hholds : cache'.Holds key) :
    cache'.reads key = some (some v.bytes, v.size) := by
  obtain ⟨l, hr⟩ := rep_of_run hrun
  obtain ⟨new, l', hset', hr', hl'⟩ := hr.cacheSet key v.bytes v.size v.toNat_size.le
  obtain rfl := Option.some.inj (hset.symm.trans hset')
  rw [hr'.holds_iff, hl', Value.ofBuffer_bytes] at hholds
  rw [hr'.reads_eq, hl', Value.ofBuffer_bytes, Lru.find_put_of_mem hholds]
  rfl

/-! ## The reference store

The cache refines the store that counts in 64 bits, and within the limit that store is the one
that counts exactly. The values in the reference store are measured by their length, which for a
`Value` is its size. -/

/-- The size of a value, as a number. -/
def valueSize (v : Value) : ℕ := v.bytes.length

/-- The store that `create_cache` is to implement. -/
def reference (maxmem : UInt64) : Lru.Store CStr Value valueSize := Lru.Store.empty maxmem.toNat

theorem toNat_size_eq : (fun v : Value ↦ v.size.toNat) = valueSize := funext Value.toNat_size

/-- The entries of a cache with room for one more value, in the terms of the reference store. -/
theorem run_createCache_of_le (hmax : maxmem.toNat ≤ 2 ^ 64 - 2 ^ 32)
    (hFn : Option (CStr → UInt64)) (calls : List (Lru.Call CStr Value)) :
    ∃ cache l, (createCache maxmem hFn).run calls
        = some (cache, ((reference maxmem).run calls).2.map Answer.ofReply) ∧
      cache.Rep maxmem (hFn.getD defHashFn) l ∧
      l.map Entry.kv = ((reference maxmem).run calls).1.entries := by
  obtain ⟨cache, l, hrun, hr, hl⟩ := (rep_createCache maxmem hFn).run calls
  have hword : Lru.run (Lru.word Value.size maxmem) [] calls = _ :=
    Lru.run_word_eq hmax (Nat.zero_le _) (rep_createCache maxmem hFn).nodup_keys calls
  rw [toNat_size_eq] at hword
  rw [List.map_nil, hword] at hrun hl
  obtain ⟨hentries, hreplies⟩ := Lru.Store.run_eq (s := reference maxmem) calls
  exact ⟨cache, l, by rw [hreplies]; exact hrun, hr, by rw [hentries]; exact hl⟩

theorem Rep.toNat_memUsed (hr : cache.Rep maxmem hFn l)
    (hle : Lru.total valueSize (l.map Entry.kv) ≤ maxmem.toNat) :
    cache.memUsed.toNat = Lru.total valueSize (l.map Entry.kv) := by
  rw [hr.used, Lru.toNat_wordTotal_of_lt, toNat_size_eq]
  rw [toNat_size_eq]
  exact hle.trans_lt maxmem.toNat_lt

section Samples

/-- The key `a`. -/
def aKey : CStr := ⟨[97], by decide⟩

/-- The key `b`. -/
def bKey : CStr := ⟨[98], by decide⟩

/-- A value of one byte. -/
def oneByte : Value := ⟨[1], by decide⟩

/-- A value of four bytes. -/
def fourBytes : Value := ⟨[1, 2, 3, 4], by decide⟩

end Samples

/-- **The cache implements the LRU store**: it returns what the reference store returns, and the
space used is the total size of the values in it. -/
theorem run_eq_store (hmax : maxmem.toNat ≤ 2 ^ 64 - 2 ^ 32) (hFn : Option (CStr → UInt64))
    (calls : List (Lru.Call CStr Value)) :
    ∃ cache, (createCache maxmem hFn).run calls
        = some (cache, ((reference maxmem).run calls).2.map Answer.ofReply) ∧
      cache.cacheSpaceUsed.toNat = ((reference maxmem).run calls).1.spaceUsed := by
  obtain ⟨cache, l, hrun, hr, hl⟩ := run_createCache_of_le hmax hFn calls
  refine ⟨cache, hrun, ?_⟩
  have hle := ((reference maxmem).run calls).1.total_le
  rw [← hl, Lru.Store.run_maxmem] at hle
  rw [Lru.Store.spaceUsed, ← hl]
  exact hr.toNat_memUsed hle

theorem run_eq_store_example : ∃ cache,
    (createCache 4 (some fun _ ↦ 7)).run [.set aKey oneByte, .set bKey fourBytes, .get aKey,
        .get bKey]
      = some (cache, [.void, .void, .value none 0, .value (some [1, 2, 3, 4]) 4]) ∧
    cache.cacheSpaceUsed.toNat = 4 :=
  run_eq_store (by decide) _ _

/-! ## The representation invariant

The invariant spelled out for a reader of the source, without the predicates of the refinement.
`SlotEmpty` concerns the middle of `cache_set`: that the place where the new node is linked is
empty when it is reached. -/

/-- The coupling of table and policy, spelled out over the objects of the source. -/
structure Invariant (cache : CacheObj) (maxmem : UInt64) (hFn : CStr → UInt64) (l : List Entry) :
    Prop where
  /-- Stored keys are distinct. -/
  key_nodup : (l.map Entry.key).Nodup
  /-- The key of an entry is its copy. -/
  key_copy : ∀ e ∈ l, cache.keys.cell e.keyPtr = some e.key
  /-- An entry is in one chain, that of the bucket its hash names. -/
  one_chain : ∃ ch : ℕ → List Entry, ∀ i < cache.tableSize,
    linkLayout.Seg cache.links (cache.table i) ((ch i).map Entry.chainNode) none ∧ (ch i).Nodup ∧
      ∀ e, e ∈ ch i ↔ e ∈ l ∧ (hFn e.key).toNat % cache.tableSize = i
  /-- Entries do not share a node of the policy. -/
  pinfo_nodup : (l.map Entry.pinfo).Nodup
  /-- The policy has no other node. -/
  pinfo_live : ∀ a x, cache.evicPolicy.infos.cell a = some x → a ∈ l.map Entry.pinfo
  /-- The node of an entry knows its key and its size. -/
  pinfo_node : ∀ e ∈ l, ∃ x, cache.evicPolicy.infos.cell e.pinfo = some x ∧
    x.ident = e.keyPtr ∧ x.valSize = e.val.size
  /-- The counter of entries. -/
  count : cache.numElements = l.length
  /-- The two counters of bytes agree. -/
  used_eq : cache.memUsed = cache.evicPolicy.usedMem
  /-- They are the sum of the sizes. -/
  used_sum : cache.memUsed.toNat = (l.map fun e ↦ e.val.size.toNat).sum
  /-- The limit is kept. -/
  used_le : cache.memUsed ≤ maxmem
  /-- The load factor is at most one half. -/
  load_le : 2 * cache.numElements ≤ cache.tableSize
  /-- The table has only been doubled. -/
  doubled : ∃ j, cache.tableSize = 2503 * 2 ^ j

/-- Whenever `cache_set` reaches `assign_to_link`, the slot it was given is empty. -/
def SlotEmpty (cache : CacheObj) : Prop :=
  ∀ key val valSize initLink c₁ c₂ c₃ newItem linkp,
    cache.querryHash key = some initLink → cache.delLink initLink = some c₁ →
    c₁.shouldAddEvictDeletions valSize = some (c₂, true) →
    c₂.makeItem key val valSize = some (c₃, newItem) → c₃.querryHash key = some linkp →
    c₃.load linkp = some none

theorem Rep.slotEmpty (hr : cache.Rep maxmem hFn l) : cache.SlotEmpty := by
  intro key val valSize initLink c₁ c₂ c₃ newItem linkp hquery hdel hevict hmake hslot
  obtain ⟨_, _, hquery', hdel', -, hr₁⟩ := hr.delLink_querryHash key
  obtain rfl := Option.some.inj (hquery.symm.trans hquery')
  obtain rfl := Option.some.inj (hdel.symm.trans hdel')
  obtain ⟨_, hevict', hr₂⟩ := hr₁.shouldAddEvictDeletions valSize
  obtain ⟨rfl, hadm⟩ := Prod.mk.inj (Option.some.inj (hevict.symm.trans hevict'))
  replace hadm := of_decide_eq_true hadm.symm
  rw [if_pos hadm] at hr₂
  have hfits : fitsBeside maxmem valSize (Lru.evict (fitsBeside maxmem valSize) (without key l))
      = true := Lru.fits_evict (by simp [fitsBeside, hadm]) _
  have hkey : key ∉ (Lru.evict (fitsBeside maxmem valSize) (without key l)).map Entry.key :=
    notMem_evict_without
  have hval : valSize.toNat ≤ val.length := by
    by_contra hval
    simp [CacheObj.makeItem, makeCopy, hval] at hmake
  obtain ⟨policy, ch, hmake', hc, -⟩ := hr₂.makeItem key hval hfits
  obtain ⟨rfl, -⟩ := Prod.mk.inj (Option.some.inj (hmake.symm.trans hmake'))
  obtain ⟨hquery₃, hload₃⟩ := hc.querryHash_of_notMem hkey
  obtain rfl := Option.some.inj (hslot.symm.trans hquery₃)
  exact hload₃

theorem Rep.invariant (hr : cache.Rep maxmem hFn l)
    (hle : Lru.total valueSize (l.map Entry.kv) ≤ maxmem.toNat) :
    cache.Invariant maxmem hFn l := by
  obtain ⟨ch, hc⟩ := hr.chained
  have hused := hr.toNat_memUsed hle
  have hpinfo : (l.map Entry.node).map Prod.fst = l.map Entry.pinfo := by
    rw [List.map_map]
    rfl
  refine ⟨hc.distinct.key, hc.key_cell, ⟨ch, fun i hi ↦ ⟨hc.seg i hi, ?_, fun e ↦ ?_⟩⟩,
    hpinfo ▸ hr.policy.nodup, hpinfo ▸ hr.policy.live, fun e he ↦ ?_, hr.count, ?_, ?_, ?_,
    hr.count ▸ hr.load_le, hr.doubled⟩
  · exact hc.nodup_chain hi
  · rw [hc.mem_chain i hi, bucketOf, mapToLocation, hr.hash]
  · obtain ⟨x, hx, hdata⟩ := hr.policy.dll.seg_down.cell (List.mem_map_of_mem he)
    exact ⟨x, hx, congrArg Prod.fst hdata, congrArg Prod.snd hdata⟩
  · rw [hr.used, hr.policy.used, Entry.nodeTotal_map_node]
  · rw [hused, Lru.total, List.map_map]
    refine congrArg _ (List.map_congr_left fun e _ ↦ ?_)
    exact (Value.toNat_size e.val).symm
  · rwa [UInt64.le_iff_toNat_le, hused]

/-- **The representation invariant** holds of every reachable cache, and no live entry is ever
overwritten in place. -/
theorem run_invariant (hmax : maxmem.toNat ≤ 2 ^ 64 - 2 ^ 32) (hFn : Option (CStr → UInt64))
    (calls : List (Lru.Call CStr Value)) :
    ∃ cache answers l, (createCache maxmem hFn).run calls = some (cache, answers) ∧
      cache.Invariant maxmem (hFn.getD defHashFn) l ∧ cache.SlotEmpty := by
  obtain ⟨cache, l, hrun, hr, hl⟩ := run_createCache_of_le hmax hFn calls
  have hle := ((reference maxmem).run calls).1.total_le
  rw [← hl, Lru.Store.run_maxmem] at hle
  exact ⟨cache, _, l, hrun, hr.invariant hle, hr.slotEmpty⟩

theorem run_invariant_example : ∃ cache answers l,
    (createCache 4 none).run [.set aKey oneByte, .set bKey fourBytes] = some (cache, answers) ∧
      cache.Invariant 4 defHashFn l ∧ cache.SlotEmpty :=
  run_invariant (by decide) none _

/-! ## Refused sets

`cache_set` deletes the old value before the policy is asked whether the new one may be stored. A
refused set of a key that is stored therefore drops it. -/

/-- **A refused set** leaves the cache as it was exactly when its key is not stored. -/
theorem refused_set_sameView_iff {hFn : Option (CStr → UInt64)}
    {calls : List (Lru.Call CStr Value)} {answers : List Answer}
    (hrun : (createCache maxmem hFn).run calls = some (cache, answers)) (key : CStr) (v : Value)
    (hbig : maxmem < v.size.toUInt64) :
    ∃ cache', cache.cacheSet key v.bytes v.size = some cache' ∧
      (cache'.SameView cache ↔ ¬ cache.Holds key) := by
  obtain ⟨l, hr⟩ := rep_of_run hrun
  obtain ⟨cache', l', hset, hr', hl'⟩ := hr.cacheSet key v.bytes v.size v.toNat_size.le
  have hadm : (Lru.word (κ := CStr) Value.size maxmem).admits v ≠ true := by
    rwa [Ne, Lru.word_admits_iff, UInt64.not_le]
  rw [Value.ofBuffer_bytes, Lru.put, if_neg hadm] at hl'
  refine ⟨cache', hset, ?_⟩
  rw [hr.holds_iff]
  constructor
  · intro hsame hmem
    have hreads := hsame.reads key
    obtain ⟨v', hv'⟩ := Lru.mem_keys.mp hmem
    rw [hr'.reads_eq, hr.reads_eq, hl', Lru.find_remove_self,
      (Lru.find_eq_some_iff hr.nodup_keys).mpr hv'] at hreads
    simp at hreads
  · intro hnotin
    exact hr'.sameView hr (hl'.trans (Lru.remove_of_notMem hnotin))

theorem refused_set_sameView_iff_example : ∃ cache answers cache',
    (createCache 2 none).run [.set aKey oneByte] = some (cache, answers) ∧
      cache.cacheSet bKey fourBytes.bytes fourBytes.size = some cache' ∧
      (cache'.SameView cache ↔ ¬ cache.Holds bKey) := by
  obtain ⟨cache', hset, hiff⟩ := refused_set_sameView_iff
    (rfl : (createCache 2 none).run [.set aKey oneByte] = some (_, _)) bKey fourBytes (by decide)
  exact ⟨_, _, cache', rfl, hset, hiff⟩

theorem refused_set_forgets : ∃ cache cache',
    (createCache 2 none).run [.set aKey oneByte] = some (cache, [.void]) ∧
      2 < fourBytes.size.toUInt64 ∧
      cache.cacheSet aKey fourBytes.bytes fourBytes.size = some cache' ∧
      cache.reads aKey = some (some [1], 1) ∧ cache'.reads aKey = some (none, 0) ∧
      ¬ cache'.SameView cache := by
  refine ⟨_, _, rfl, by decide, rfl, rfl, rfl, ?_⟩
  intro hsame
  exact absurd (hsame.reads aKey) (by decide)

/-! ## Premature eviction -/

/-- **No premature eviction.** While the latest values fit together, the cache answers as a
dictionary. -/
theorem run_eq_dictionary (hmax : maxmem.toNat ≤ 2 ^ 64 - 2 ^ 32) (hFn : Option (CStr → UInt64))
    (calls : List (Lru.Call CStr Value))
    (hcalls : Lru.StaysWithin valueSize maxmem.toNat [] calls) :
    ∃ cache, (createCache maxmem hFn).run calls
        = some (cache, (Lru.consultAll [] calls).map Answer.ofReply) := by
  obtain ⟨cache, l, hrun, -, -⟩ := run_createCache_of_le hmax hFn calls
  have hreplies : ((reference maxmem).run calls).2 = Lru.consultAll [] calls :=
    (Lru.Store.run_eq calls).2.trans
      (Lru.run_eq_consultAll Lru.nodup_keys_nil (List.Perm.refl _) calls hcalls)
  exact ⟨cache, by rw [← hreplies]; exact hrun⟩

theorem run_eq_dictionary_example : ∃ cache,
    (createCache 5 none).run [.set aKey fourBytes, .set aKey oneByte, .set bKey fourBytes,
        .get aKey, .delete aKey, .get aKey]
      = some (cache, [.void, .void, .void, .value (some [1]) 1, .void, .value none 0]) :=
  run_eq_dictionary (by decide) none _ ⟨by decide, by decide, by decide, trivial⟩

/-! ## A row of sets -/

/-- **The outcome of storing distinct keys in a row.** A key reads as its own value when the sizes
from its value on fit the limit, and is gone otherwise; the space used is that of the keys still
there. -/
theorem run_row_of_sets (hmax : maxmem.toNat ≤ 2 ^ 64 - 2 ^ 32) (hFn : Option (CStr → UInt64))
    (kvs : List (CStr × Value)) (hnd : (Lru.keys kvs).Nodup)
    (hsize : ∀ e ∈ kvs, valueSize e.2 ≤ maxmem.toNat) :
    ∃ cache answers, (createCache maxmem hFn).run (Lru.setCalls kvs) = some (cache, answers) ∧
      (∀ i : Fin kvs.length, cache.reads (kvs.get i).1 =
        if Lru.total valueSize (kvs.drop i) ≤ maxmem.toNat then
          some (some (kvs.get i).2.bytes, (kvs.get i).2.size)
        else some (none, 0)) ∧
      cache.cacheSpaceUsed.toNat = ∑ i : Fin kvs.length,
        if Lru.total valueSize (kvs.drop i) ≤ maxmem.toNat then valueSize (kvs.get i).2 else 0 := by
  obtain ⟨cache, l, hrun, hr, hl⟩ := run_createCache_of_le hmax hFn (Lru.setCalls kvs)
  have hle := ((reference maxmem).run (Lru.setCalls kvs)).1.total_le
  rw [← hl, Lru.Store.run_maxmem] at hle
  have hused := hr.toNat_memUsed hle
  replace hl : l.map Entry.kv
      = (Lru.run (Lru.exact valueSize maxmem.toNat) [] (Lru.setCalls kvs)).1 :=
    hl.trans (Lru.Store.run_eq _).1
  refine ⟨cache, _, hrun, fun i ↦ ?_, ?_⟩
  · have hsplit : kvs = kvs.take i ++ kvs.get i :: kvs.drop (i + 1) := by
      rw [List.get_eq_getElem, List.cons_getElem_drop_succ, List.take_append_drop]
    have hdrop : kvs.get i :: kvs.drop (i + 1) = kvs.drop i := by
      rw [List.get_eq_getElem, List.cons_getElem_drop_succ]
    rw [hr.reads_eq, hl, Lru.find_run_setCalls hsplit hnd hsize, hdrop]
    split <;> rfl
  · rw [cacheSpaceUsed, hused, hl]
    exact Lru.total_run_setCalls hnd hsize

theorem run_row_of_sets_example : ∃ cache answers,
    (createCache 4 none).run (Lru.setCalls [(aKey, oneByte), (bKey, fourBytes)])
        = some (cache, answers) ∧
      (∀ i : Fin 2, cache.reads ([aKey, bKey].get i) =
        if i = 1 then some (some [1, 2, 3, 4], 4) else some (none, 0)) ∧
      cache.cacheSpaceUsed.toNat = 4 := by
  obtain ⟨cache, answers, hrun, hreads, hspace⟩ :=
    run_row_of_sets (by decide : (4 : UInt64).toNat ≤ 2 ^ 64 - 2 ^ 32) none
      [(aKey, oneByte), (bKey, fourBytes)] (by decide) (by decide)
  refine ⟨cache, answers, hrun, fun i ↦ ?_, hspace.trans (by decide)⟩
  match i with
  | 0 => exact hreads 0
  | 1 => exact hreads 1

end CacheObj

end NetCache
