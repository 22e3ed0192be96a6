import NetCache.Cache.Accounts
import NetCache.Cache.Resize
import NetCache.Policy.Recency

/-!
# The cache refines the LRU store

`Rep cache maxmem hFn l` couples the two structures of a cache. The entries `l`, most recently used
first, are those of the chains of the table and, in the same order, those of the recency list of the
policy; both byte counters are the sum of their sizes, in the arithmetic of `uint64_t`.

## What is preserved

Every call keeps this invariant, never fails, and acts on the keys and values of the entries as the
call of `Lru.step` does, under the capacity `Lru.word`. That needs no bound on the limit: when the
counters wrap, those of the capacity wrap as well. The abstract store sees of an entry only
`Entry.kv`, its key and value; addresses are not compared.

## Layers of a call

`cache_set` is a deletion, a loop of deletions, and an insertion. Each part has a specification
under `Rep`, in terms of the list of entries:

* Deleting through a `link_t *` drops the entry it leads to, if there is one (`Rep.delLink`).
* The eviction loop drops the entries that the policy has named, found again by searching for their
  keys, and these are what `Lru.evict` drops (`Rep.shouldAddEvictDeletions`).
* Adding puts a new entry in front, and doubles the table if that makes it more than half full
  (`Rep.addToCache`).

## Failure

A run that succeeds is one without null or dangling dereferences, out-of-bounds writes, failed
assertions or endless walks, as these are failures in the model. `Rep.run` says that every run
succeeds.
-/

namespace NetCache

namespace Entry

/-- The key and the value. -/
def kv (e : Entry) : CStr × Value := (e.key, e.val)

/-- The entry as a node of the recency list. -/
def node (e : Entry) : Node Addr := (e.pinfo, (e.keyPtr, e.val.size))

theorem keys_map_kv (l : List Entry) : Lru.keys (l.map kv) = l.map key := by
  rw [Lru.keys, List.map_map]
  rfl

theorem nodeTotal_map_node (l : List Entry) :
    nodeTotal (l.map node) = Lru.wordTotal Value.size (l.map kv) := by
  induction l with
  | nil => rfl
  | cons e l ih => exact congrArg (e.val.size.toUInt64 + ·) ih

end Entry

namespace CacheObj

/-- The cache keeps the entries `l`, most recently used first. -/
structure Rep (cache : CacheObj) (maxmem : UInt64) (hFn : CStr → UInt64) (l : List Entry) :
    Prop where
  /-- The entries are those of the table. -/
  chained : ∃ ch, cache.Chained l ch
  /-- The entries are those of the policy. -/
  policy : cache.evicPolicy.Recency (l.map Entry.node)
  /-- The limit of the cache. -/
  limit : cache.maxmem = maxmem
  /-- The policy has the same limit. -/
  policy_limit : cache.evicPolicy.maxmem = maxmem
  /-- The hash function. -/
  hash : cache.hFn = hFn
  /-- The counter of bytes. -/
  used : cache.memUsed = Lru.wordTotal Value.size (l.map Entry.kv)
  /-- The counter of entries. -/
  count : cache.numElements = l.length
  /-- The load factor is at most one half. -/
  load_le : 2 * l.length ≤ cache.tableSize
  /-- The table has only been doubled. -/
  doubled : ∃ j, cache.tableSize = defaultTableSize * 2 ^ j

variable {cache : CacheObj} {maxmem : UInt64} {hFn : CStr → UInt64} {l l₁ l₂ pre post : List Entry}
  {ch : ℕ → List Entry} {e : Entry} {key : CStr} {val : Bytes} {valSize : UInt32}

theorem Rep.distinct (hr : cache.Rep maxmem hFn l) : Distinct l := hr.chained.choose_spec.distinct

theorem Rep.nodup_keys (hr : cache.Rep maxmem hFn l) : (Lru.keys (l.map Entry.kv)).Nodup := by
  rw [Entry.keys_map_kv]
  exact hr.distinct.key

/-- A new cache has no entries, whatever the heaps hold of link nodes and keys. -/
theorem rep_createCacheIn {infos : Heap (PinfoObj Addr)} (hfree : ∀ a, infos.cell a = none)
    (links : Heap LinkObj) (keys : Heap CStr) (maxmem : UInt64) (hFn : Option (CStr → UInt64)) :
    (createCacheIn links keys infos maxmem hFn).Rep maxmem (hFn.getD defHashFn) [] where
  chained := ⟨fun _ ↦ [], fun _ _ ↦ rfl, by simp, by simp, Distinct.nil, by
    show 0 < defaultTableSize
    decide⟩
  policy := PolicyObj.recency_createPolicyIn hfree maxmem
  limit := rfl
  policy_limit := rfl
  hash := rfl
  used := rfl
  count := rfl
  load_le := Nat.zero_le _
  doubled := ⟨0, rfl⟩

theorem rep_createCache (maxmem : UInt64) (hFn : Option (CStr → UInt64)) :
    (createCache maxmem hFn).Rep maxmem (hFn.getD defHashFn) [] :=
  rep_createCacheIn (fun _ ↦ rfl) Heap.empty Heap.empty maxmem hFn

/-! ## Deletion -/

/-- `del_link` through the pointer to an entry takes that entry out of both structures. -/
theorem Rep.delLink (hr : cache.Rep maxmem hFn (l₁ ++ e :: l₂))
    (hc : cache.Chained (l₁ ++ e :: l₂) ch)
    (hsplit : ch (cache.bucketOf e.key) = pre ++ e :: post) :
    ∃ cache', cache.delLink (ptrAfter (cache.bucketOf e.key) pre) = some cache' ∧
      cache'.tableSize = cache.tableSize ∧ cache'.Rep maxmem hFn (l₁ ++ l₂) := by
  have hload : cache.load (ptrAfter (cache.bucketOf e.key) pre) = some (some e.link) :=
    load_ptrAfter pre (e :: post) (hc.bucketOf_lt _) (hsplit ▸ hc.seg _ (hc.bucketOf_lt _))
  obtain ⟨o, table, links, ho, hdata, hstore, ho', hc'⟩ := hc.remove hsplit
  have hrec := hr.policy
  rw [List.map_append, List.map_cons] at hrec
  obtain ⟨policy, hdel, hmax, hrec'⟩ := PolicyObj.deleteInfo_spec hrec
  have hcell : cache.keys.cell e.keyPtr = some e.key := hc.key_cell e (by simp)
  -- the cache as `del_link` leaves it, field by field
  refine ⟨⟨cache.maxmem, cache.memUsed - e.val.size.toUInt64, table, cache.tableSize,
    cache.numElements - 1, cache.hFn, policy, links.erase e.link, cache.keys.erase e.keyPtr⟩,
    ?_, rfl, ⟨_, hc'.congr rfl rfl rfl rfl rfl⟩, ?_, hr.limit, hmax.trans hr.policy_limit,
    hr.hash, ?_, ?_, ?_, hr.doubled⟩
  · replace hdel : cache.evicPolicy.deleteInfo e.pinfo = some policy := hdel
    simp only [CacheObj.delLink, hload, Option.bind_eq_bind, Option.bind_some, Heap.read_eq ho,
      hstore, hdata, Entry.data, Heap.free_eq hcell, Heap.free_eq ho']
    rw [hdel]
    rfl
  · rwa [List.map_append]
  · show cache.memUsed - (e.kv.2).size.toUInt64 = _
    rw [hr.used, List.map_append, List.map_cons, Lru.wordTotal_middle_sub, List.map_append]
  · have hcount := hr.count
    simp only [List.length_append, List.length_cons] at hcount ⊢
    omega
  · have hload_le := hr.load_le
    simp only [List.length_append, List.length_cons] at hload_le ⊢
    omega

/-- The entries without that of a key. -/
def without (key : CStr) (l : List Entry) : List Entry := l.filter fun e ↦ e.key ≠ key

theorem mem_without : e ∈ without key l ↔ e ∈ l ∧ e.key ≠ key := by
  rw [without, List.mem_filter, decide_eq_true_eq]

theorem map_kv_without : (without key l).map Entry.kv = Lru.remove key (l.map Entry.kv) := by
  rw [without, Lru.remove, List.filter_map]
  rfl

theorem without_middle (hd : Distinct (l₁ ++ e :: l₂)) :
    without e.key (l₁ ++ e :: l₂) = l₁ ++ l₂ := by
  have hnotin := (nodup_map_middle hd.key).1
  rw [List.map_append, List.mem_append, not_or] at hnotin
  have hkeep : ∀ l' : List Entry, e.key ∉ l'.map Entry.key → without e.key l' = l' := by
    intro l' h
    refine List.filter_eq_self.mpr ?_
    intro e' he'
    simpa using fun hk : e'.key = e.key ↦ h (hk ▸ List.mem_map_of_mem he')
  rw [without, List.filter_append, List.filter_cons_of_neg (by simp)]
  exact congrArg₂ _ (hkeep l₁ hnotin.1) (hkeep l₂ hnotin.2)

theorem without_of_notMem (h : key ∉ l.map Entry.key) : without key l = l := by
  refine List.filter_eq_self.mpr ?_
  intro e he
  simpa using fun hk : e.key = key ↦ h (hk ▸ List.mem_map_of_mem he)

theorem Rep.delLink_querryHash (hr : cache.Rep maxmem hFn l) (key : CStr) :
    ∃ p cache', cache.querryHash key = some p ∧ cache.delLink p = some cache' ∧
      cache'.tableSize = cache.tableSize ∧ cache'.Rep maxmem hFn (without key l) := by
  obtain ⟨ch, hc⟩ := hr.chained
  by_cases hk : key ∈ l.map Entry.key
  · obtain ⟨e, he, rfl⟩ := List.mem_map.mp hk
    obtain ⟨pre, post, hsplit, hquery, -⟩ := hc.querryHash_of_mem he
    obtain ⟨l₁, l₂, rfl⟩ := List.append_of_mem he
    obtain ⟨cache', hdel, hsize, hr'⟩ := hr.delLink hc hsplit
    exact ⟨_, cache', hquery, hdel, hsize, by rwa [without_middle hc.distinct]⟩
  · obtain ⟨hquery, hload⟩ := hc.querryHash_of_notMem hk
    refine ⟨_, cache, hquery, ?_, rfl, by rwa [without_of_notMem hk]⟩
    rw [CacheObj.delLink, hload]
    rfl

theorem Rep.cacheDelete (hr : cache.Rep maxmem hFn l) (key : CStr) :
    ∃ cache', cache.cacheDelete key = some cache' ∧ cache'.Rep maxmem hFn (without key l) := by
  obtain ⟨p, cache', hquery, hdel, -, hr'⟩ := hr.delLink_querryHash key
  refine ⟨cache', ?_, hr'⟩
  rw [CacheObj.cacheDelete, hquery]
  exact hdel

/-! ## Eviction

The policy names the addresses of keys, and the loop looks each of them up again. The key must
still be allocated when its turn comes, which holds because the names are distinct and in the
list. -/

/-- Whether a value fits beside entries, as the policy of a cache decides it. -/
def fitsBeside (maxmem : UInt64) (valSize : UInt32) (l : List Entry) : Bool :=
  Lru.wordTotal Value.size (l.map Entry.kv) + valSize.toUInt64 ≤ maxmem

/-- Deleting the evicted entries by key, least recent first, leaves the others. -/
theorem Rep.evictLoop {gone : List Entry} (hr : cache.Rep maxmem hFn (l ++ gone)) :
    ∃ cache', (gone.reverse.map Entry.keyPtr).foldlM (fun c id ↦ do
        let key ← c.keys.read id
        c.cacheDelete key) cache = some cache' ∧ cache'.Rep maxmem hFn l := by
  induction gone using List.reverseRecOn generalizing cache with
  | nil => exact ⟨cache, rfl, by simpa using hr⟩
  | append_singleton gone e ih =>
    rw [← List.append_assoc] at hr
    obtain ⟨cache₁, hdel, hr₁⟩ := hr.cacheDelete e.key
    rw [without_middle hr.distinct, List.append_nil] at hr₁
    obtain ⟨cache', hfold, hr'⟩ := ih hr₁
    obtain ⟨ch, hc⟩ := hr.chained
    -- the key is read through the id before the deletion frees its copy
    have hcell : cache.keys.cell e.keyPtr = some e.key := hc.key_cell e (by simp)
    refine ⟨cache', ?_, hr'⟩
    rw [List.reverse_append, List.reverse_singleton, List.singleton_append, List.map_cons,
      List.foldlM_cons]
    simp only [Heap.read_eq hcell, Option.bind_eq_bind, Option.bind_some, hdel]
    exact hfold

/-- The policy's verdict and the deletions it asks for. -/
theorem Rep.shouldAddEvictDeletions (hr : cache.Rep maxmem hFn l) (valSize : UInt32) :
    ∃ cache', cache.shouldAddEvictDeletions valSize
        = some (cache', decide (valSize.toUInt64 ≤ maxmem)) ∧
      cache'.Rep maxmem hFn
        (if valSize.toUInt64 ≤ maxmem then Lru.evict (fitsBeside maxmem valSize) l else l) := by
  have hids := PolicyObj.idsToDeleteIfAdded_spec hr.policy valSize
  rw [hr.policy_limit] at hids
  by_cases hadm : valSize.toUInt64 ≤ maxmem
  · rw [if_pos hadm] at hids ⊢
    -- the policy decides over its nodes what the store decides over the entries
    have hevict : Lru.evict (PolicyObj.fitsBeside maxmem valSize) (l.map Entry.node)
        = (Lru.evict (fitsBeside maxmem valSize) l).map Entry.node := by
      rw [Lru.evict_map]
      refine congrArg _ (Lru.evict_congr fun p _ ↦ ?_)
      rw [PolicyObj.fitsBeside, fitsBeside, Entry.nodeTotal_map_node]
    obtain ⟨gone, hgone⟩ := Lru.evict_isPrefix (fitsBeside maxmem valSize) l
    generalize Lru.evict (fitsBeside maxmem valSize) l = kept at hevict hgone
    subst hgone
    obtain ⟨cache', hfold, hr'⟩ := hr.evictLoop
    refine ⟨cache', ?_, hr'⟩
    rw [hevict, List.length_map, ← List.map_drop, List.drop_left, ← List.map_reverse,
      List.map_map] at hids
    simp only [CacheObj.shouldAddEvictDeletions, hids, Option.bind_eq_bind, Option.bind_some,
      if_true, hadm, decide_true]
    -- the policy names the entries by the addresses of their keys
    have hnames : gone.reverse.map ((fun n ↦ n.2.1) ∘ Entry.node)
        = gone.reverse.map Entry.keyPtr := rfl
    simp only [Option.bind_eq_bind] at hfold
    rw [hnames, hfold]
    rfl
  · rw [if_neg hadm] at hids ⊢
    refine ⟨cache, ?_, hr⟩
    simp only [CacheObj.shouldAddEvictDeletions, hids, Option.bind_eq_bind, Option.bind_some,
      hadm, decide_false]
    rfl

theorem notMem_evict_without {fits : List Entry → Bool} :
    key ∉ (Lru.evict fits (without key l)).map Entry.key := by
  intro hmem
  obtain ⟨e, he, rfl⟩ := List.mem_map.mp hmem
  have hmem' := (Lru.evict_isPrefix fits (without e.key l)).subset he
  exact absurd rfl (of_decide_eq_true (List.mem_filter.mp hmem').2)

/-! ## Insertion

The copies and the node of the policy are made first, and then the location is searched once
more: the one found at the beginning may lead through a node that has been freed since. The table
grows when the entry is linked. -/

theorem makeCopy_eq (h : valSize.toNat ≤ val.length) :
    makeCopy val valSize.toNat = some (Value.ofBuffer val valSize).bytes := if_pos h

theorem Rep.makeItem (hr : cache.Rep maxmem hFn l) (key : CStr)
    (hval : valSize.toNat ≤ val.length) (hfits : fitsBeside maxmem valSize l = true) :
    ∃ policy ch, cache.makeItem key val valSize =
        some ({ cache with keys := cache.keys.push key, evicPolicy := policy },
          ⟨cache.keys.next, (Value.ofBuffer val valSize).bytes, valSize,
            cache.evicPolicy.infos.next⟩) ∧
      Chained { cache with keys := cache.keys.push key, evicPolicy := policy } l ch ∧
      policy.maxmem = maxmem ∧
      policy.Recency
        ((cache.evicPolicy.infos.next, (cache.keys.next, valSize)) :: l.map Entry.node) ∧
      cache.keys.next ∉ l.map Entry.keyPtr := by
  obtain ⟨ch, hc⟩ := hr.chained
  have hle : cache.evicPolicy.usedMem + valSize.toUInt64 ≤ cache.evicPolicy.maxmem := by
    rw [hr.policy.used, Entry.nodeTotal_map_node, hr.policy_limit]
    exact of_decide_eq_true hfits
  obtain ⟨policy, hcreate, hmax, hrec⟩ :=
    PolicyObj.createInfo_spec hr.policy cache.keys.next valSize hle
  refine ⟨policy, ch, ?_, ⟨hc.seg, hc.mem_chain, fun e he ↦ Heap.push_of_cell (hc.key_cell e he),
    hc.distinct, hc.size_pos⟩, hmax.trans hr.policy_limit, hrec, ?_⟩
  · simp only [CacheObj.makeItem, Heap.alloc, makeCopy_eq hval, hcreate, Option.bind_eq_bind,
      Option.bind_some]
  · intro h
    obtain ⟨e, he, heq⟩ := List.mem_map.mp h
    exact (Heap.lt_next (hc.key_cell e he)).ne heq

theorem Chained.assignToLink (hc : cache.Chained l ch) (hkey : e.key ∉ l.map Entry.key)
    (hkeyPtr : e.keyPtr ∉ l.map Entry.keyPtr) (hcell : cache.keys.cell e.keyPtr = some e.key)
    (hlink : e.link = cache.links.next) :
    ∃ p table links ch', cache.querryHash e.key = some p ∧ cache.load p = some none ∧
      cache.assignToLink p e.data = some { cache with table := table, links := links } ∧
      Chained { cache with table := table, links := links } (e :: l) ch' := by
  obtain ⟨hquery, hload⟩ := hc.querryHash_of_notMem hkey
  -- the new node is allocated, and in no chain yet
  have hpush : Chained { cache with links := cache.links.push ⟨e.data, none⟩ } l ch :=
    ⟨fun i hi ↦ (hc.seg i hi).congr fun n hn ↦ by
        obtain ⟨o, ho, -⟩ := (hc.seg i hi).cell hn
        rw [ho]
        exact Heap.push_of_cell ho,
      hc.mem_chain, hc.key_cell, hc.distinct, hc.size_pos⟩
  have hfresh : e.link ∉ l.map Entry.link := by
    rw [hlink]
    intro h
    obtain ⟨e', he', heq⟩ := List.mem_map.mp h
    obtain ⟨o, ho, -⟩ := hc.link_cell he'
    exact (Heap.lt_next ho).ne heq
  obtain ⟨table, links, hstore, -, hc', -⟩ :=
    hpush.insert (o := ⟨e.data, none⟩) (hlink ▸ Heap.push_self) rfl rfl hcell hfresh hkeyPtr hkey
  refine ⟨_, table, links, _, hquery, hload, ?_, hc'⟩
  simp only [CacheObj.assignToLink, hload, Option.bind_eq_bind, Option.bind_some, Heap.alloc,
    ← hlink]
  exact hstore

/-- **`add_to_cache`** up to its last step: the cache that is resized if the load factor is over one
half. With any table for the entries that is large enough it represents them. -/
theorem Rep.addToCache_full (hr : cache.Rep maxmem hFn l) (hkey : key ∉ l.map Entry.key)
    (hval : valSize.toNat ≤ val.length) (hfits : fitsBeside maxmem valSize l = true) :
    ∃ full e ch, cache.addToCache key val valSize =
        (if full.tableSize < full.numElements * 2 then full.resizeTable (full.tableSize * 2)
          else some full) ∧
      e.kv = (key, Value.ofBuffer val valSize) ∧ e.link = cache.links.next ∧
      full.tableSize = cache.tableSize ∧ full.numElements = l.length + 1 ∧
      full.Chained (e :: l) ch ∧
      ∀ table links size ch', 2 * (l.length + 1) ≤ size → (∃ j, size = defaultTableSize * 2 ^ j) →
        Chained { full with table := table, links := links, tableSize := size } (e :: l) ch' →
        Rep { full with table := table, links := links, tableSize := size }
          maxmem hFn (e :: l) := by
  obtain ⟨policy, ch, hmake, hc, hmax, hrec, hkeyPtr⟩ := hr.makeItem key hval hfits
  let e : Entry := ⟨cache.links.next, cache.keys.next, key, Value.ofBuffer val valSize,
    cache.evicPolicy.infos.next⟩
  have hsize : e.val.size = valSize := Value.size_ofBuffer hval
  obtain ⟨p, table, links, ch', hquery, -, hassign, hc'⟩ :=
    hc.assignToLink (e := e) hkey hkeyPtr Heap.push_self rfl
  have hused : cache.memUsed + valSize.toUInt64
      = Lru.wordTotal Value.size ((e :: l).map Entry.kv) := by
    rw [List.map_cons, Lru.wordTotal_cons, hr.used, ← hsize, UInt64.add_comm]
    rfl
  have hcount : cache.numElements + 1 = (e :: l).length := by rw [hr.count, List.length_cons]
  have hdata : e.data = ⟨cache.keys.next, (Value.ofBuffer val valSize).bytes, valSize,
      cache.evicPolicy.infos.next⟩ := by
    rw [Entry.data, hsize]
  have hrec' : policy.Recency ((e :: l).map Entry.node) := by
    rw [List.map_cons, Entry.node, hsize]
    exact hrec
  refine ⟨⟨cache.maxmem, cache.memUsed + valSize.toUInt64, table, cache.tableSize,
    cache.numElements + 1, cache.hFn, policy, links, cache.keys.push key⟩, e, ch', ?_, rfl, rfl,
    rfl, hcount, hc'.congr rfl rfl rfl rfl rfl, fun table links size ch' hload hdoubled hc' ↦
      ⟨⟨_, hc'⟩, hrec', hr.limit, hmax, hr.hash, hused, hcount, hload, hdoubled⟩⟩
  rw [CacheObj.addToCache, hmake]
  simp only [Option.bind_eq_bind, Option.bind_some]
  rw [show querryHash _ key = some p from hquery]
  simp only [Option.bind_some]
  rw [← hdata, hassign]
  rfl

theorem Rep.addToCache (hr : cache.Rep maxmem hFn l) (hkey : key ∉ l.map Entry.key)
    (hval : valSize.toNat ≤ val.length) (hfits : fitsBeside maxmem valSize l = true) :
    ∃ cache' e, cache.addToCache key val valSize = some cache' ∧
      e.kv = (key, Value.ofBuffer val valSize) ∧ e.link = cache.links.next ∧
      cache'.Rep maxmem hFn (e :: l) := by
  obtain ⟨full, e, ch, hadd, hkv, hlink, hsize, hnum, hc, hrep⟩ :=
    hr.addToCache_full hkey hval hfits
  obtain ⟨j, hj⟩ := hr.doubled
  have hload := hr.load_le
  have hpos := hc.size_pos
  rw [← hsize] at hj hload
  by_cases hgrow : full.tableSize < full.numElements * 2
  · rw [if_pos hgrow] at hadd
    obtain ⟨table, links, ch', hresize, -, hc'⟩ :=
      hc.resizeTable_spec (full.tableSize * 2) (by omega)
    refine ⟨_, e, hadd.trans hresize, hkv, hlink, hrep _ _ _ ch' (by omega) ⟨j + 1, ?_⟩ hc'⟩
    rw [hj, Nat.pow_succ, Nat.mul_assoc]
  · rw [if_neg hgrow] at hadd
    exact ⟨full, e, hadd, hkv, hlink, hrep full.table full.links full.tableSize ch (by omega)
      ⟨j, hj⟩ hc⟩

/-! ## Calls -/

/-- The first steps of `cache_set`: the old entry goes, whether or not the value is then stored, and
then those that the policy names. -/
theorem Rep.cacheSet_eq (hr : cache.Rep maxmem hFn l) (key : CStr) (val : Bytes)
    (valSize : UInt32) :
    ∃ room : CacheObj, cache.cacheSet key val valSize
        = (if valSize.toUInt64 ≤ maxmem then room.addToCache key val valSize else some room) ∧
      room.tableSize = cache.tableSize ∧ room.links.next = cache.links.next ∧
      room.Rep maxmem hFn (if valSize.toUInt64 ≤ maxmem
        then Lru.evict (fitsBeside maxmem valSize) (without key l) else without key l) := by
  obtain ⟨p, cache₁, hquery, hdel, -, hr₁⟩ := hr.delLink_querryHash key
  obtain ⟨cache₂, hevict, hr₂⟩ := hr₁.shouldAddEvictDeletions valSize
  have hshrunk := (delLink_shrunk hdel).trans (shouldAddEvictDeletions_shrunk hevict)
  refine ⟨cache₂, ?_, hshrunk.tableSize, hshrunk.next, hr₂⟩
  simp only [CacheObj.cacheSet, hquery, hdel, hevict, Option.bind_eq_bind, Option.bind_some,
    decide_eq_true_eq]

theorem fitsBeside_evict (hadm : valSize.toUInt64 ≤ maxmem) (l : List Entry) :
    fitsBeside maxmem valSize (Lru.evict (fitsBeside maxmem valSize) l) = true := by
  refine Lru.fits_evict ?_ _
  simp [fitsBeside, hadm]

/-- **`cache_set`** stores the first `valSize` bytes of the buffer, in a node of its own. The other
entries that are left are those from before, where they were. -/
theorem Rep.cacheSet_entries (hr : cache.Rep maxmem hFn l) (key : CStr) (val : Bytes)
    (valSize : UInt32) (hval : valSize.toNat ≤ val.length) :
    ∃ cache' l', cache.cacheSet key val valSize = some cache' ∧ cache'.Rep maxmem hFn l' ∧
      l'.map Entry.kv = Lru.put (Lru.word Value.size maxmem) key (Value.ofBuffer val valSize)
        (l.map Entry.kv) ∧
      ∀ e ∈ l', e ∈ l ∧ e.key ≠ key ∨
        e.kv = (key, Value.ofBuffer val valSize) ∧ e.link = cache.links.next := by
  obtain ⟨room, hset, -, hnext, hr'⟩ := hr.cacheSet_eq key val valSize
  have hadmits : (Lru.word (κ := CStr) Value.size maxmem).admits (Value.ofBuffer val valSize) = true
      ↔ valSize.toUInt64 ≤ maxmem := by
    rw [Lru.word_admits_iff, Value.size_ofBuffer hval]
  by_cases hadm : valSize.toUInt64 ≤ maxmem
  · rw [if_pos hadm] at hr' hset
    obtain ⟨cache', e, hadd, hkv, hlink, hr''⟩ :=
      hr'.addToCache notMem_evict_without hval (fitsBeside_evict hadm _)
    refine ⟨cache', _, hset.trans hadd, hr'', ?_, fun e' he' ↦ ?_⟩
    · rw [Lru.put, if_pos (hadmits.mpr hadm), List.map_cons, hkv, ← map_kv_without, Lru.evict_map]
      refine congrArg _ (congrArg _ (Lru.evict_congr fun p _ ↦ ?_))
      simp only [fitsBeside, Lru.word, Value.size_ofBuffer hval]
    · rcases List.mem_cons.mp he' with rfl | he'
      · exact Or.inr ⟨hkv, hlink.trans hnext⟩
      · exact Or.inl (mem_without.mp ((Lru.evict_isPrefix _ _).subset he'))
  · rw [if_neg hadm] at hr' hset
    refine ⟨room, _, hset, hr', ?_, fun e' he' ↦ Or.inl (mem_without.mp he')⟩
    rw [Lru.put, if_neg (hadmits.not.mpr hadm), map_kv_without]

theorem Rep.cacheSet (hr : cache.Rep maxmem hFn l) (key : CStr) (val : Bytes) (valSize : UInt32)
    (hval : valSize.toNat ≤ val.length) :
    ∃ cache' l', cache.cacheSet key val valSize = some cache' ∧ cache'.Rep maxmem hFn l' ∧
      l'.map Entry.kv = Lru.put (Lru.word Value.size maxmem) key (Value.ofBuffer val valSize)
        (l.map Entry.kv) := by
  obtain ⟨cache', l', hset, hr', hl', -⟩ := hr.cacheSet_entries key val valSize hval
  exact ⟨cache', l', hset, hr', hl'⟩

/-- **`cache_get`** answers the value of the key, and moves its entry to the front. No entry
leaves its nodes. -/
theorem Rep.cacheGet_entries (hr : cache.Rep maxmem hFn l) (key : CStr) :
    ∃ cache' l', cache.cacheGet key = some (cache',
        (Lru.find key (l.map Entry.kv)).map Value.bytes,
        ((Lru.find key (l.map Entry.kv)).map Value.size).getD 0) ∧
      cache'.Rep maxmem hFn l' ∧ l'.map Entry.kv = Lru.touch key (l.map Entry.kv) ∧
      l'.Perm l ∧ cache'.links = cache.links := by
  obtain ⟨ch, hc⟩ := hr.chained
  by_cases hk : key ∈ l.map Entry.key
  · obtain ⟨e, he, rfl⟩ := List.mem_map.mp hk
    obtain ⟨pre, post, hsplit, hquery, hload⟩ := hc.querryHash_of_mem he
    obtain ⟨o, ho, hdata⟩ := hc.link_cell he
    have hfind : Lru.find e.key (l.map Entry.kv) = some e.val :=
      (Lru.find_eq_some_iff hr.nodup_keys).mpr (List.mem_map_of_mem he)
    obtain ⟨l₁, l₂, rfl⟩ := List.append_of_mem he
    have hrec := hr.policy
    rw [List.map_append, List.map_cons] at hrec
    obtain ⟨policy, hgot, hmax, hrec'⟩ := PolicyObj.infoGotten_spec hrec
    -- the table does not see the order of the entries, only the policy does
    have hperm : (l₁ ++ e :: l₂).Perm (e :: (l₁ ++ l₂)) := List.perm_middle
    refine ⟨{ cache with evicPolicy := policy }, e :: (l₁ ++ l₂), ?_,
      ⟨⟨ch, (hc.perm hperm).congr rfl rfl rfl rfl rfl⟩, by rwa [List.map_cons, List.map_append],
        hr.limit, hmax.trans hr.policy_limit, hr.hash, ?_, ?_, ?_, hr.doubled⟩, ?_, hperm.symm,
        rfl⟩
    · have hgot' : cache.evicPolicy.infoGotten e.pinfo = some policy := hgot
      simp only [CacheObj.cacheGet, hquery, hload, Heap.read_eq ho, hdata, Entry.data,
        Option.bind_eq_bind, Option.bind_some]
      rw [hgot', hfind]
      rfl
    · rw [List.map_cons, List.map_append, Lru.wordTotal_cons, ← Lru.wordTotal_middle]
      exact hr.used.trans (congrArg _ (by rw [List.map_append, List.map_cons]))
    · exact hr.count.trans hperm.length_eq
    · exact hperm.length_eq ▸ hr.load_le
    · rw [Lru.touch_of_some hfind, ← map_kv_without, without_middle hr.distinct]
      rfl
  · obtain ⟨hquery, hload⟩ := hc.querryHash_of_notMem hk
    have hfind : Lru.find key (l.map Entry.kv) = none := by
      rwa [Lru.find_eq_none_iff, Entry.keys_map_kv]
    refine ⟨cache, l, ?_, hr, (Lru.touch_of_none hfind).symm, List.Perm.refl l, rfl⟩
    simp only [CacheObj.cacheGet, hquery, hload, hfind, Option.bind_eq_bind, Option.bind_some]
    rfl

theorem Rep.cacheGet (hr : cache.Rep maxmem hFn l) (key : CStr) :
    ∃ cache' l', cache.cacheGet key = some (cache',
        (Lru.find key (l.map Entry.kv)).map Value.bytes,
        ((Lru.find key (l.map Entry.kv)).map Value.size).getD 0) ∧
      cache'.Rep maxmem hFn l' ∧ l'.map Entry.kv = Lru.touch key (l.map Entry.kv) := by
  obtain ⟨cache', l', hget, hr', hl', -⟩ := hr.cacheGet_entries key
  exact ⟨cache', l', hget, hr', hl'⟩

/-- What a caller sees of a reply of the store. -/
def Answer.ofReply : Lru.Reply Value → Answer
  | .done => .void
  | .miss => .value none 0
  | .hit v => .value (some v.bytes) v.size

theorem Rep.exec (hr : cache.Rep maxmem hFn l) (call : Lru.Call CStr Value) :
    ∃ cache' l', cache.exec call = some (cache', Answer.ofReply
        (Lru.step (Lru.word Value.size maxmem) (l.map Entry.kv) call).2) ∧
      cache'.Rep maxmem hFn l' ∧
      l'.map Entry.kv = (Lru.step (Lru.word Value.size maxmem) (l.map Entry.kv) call).1 := by
  cases call with
  | set key v =>
    obtain ⟨cache', l', hset, hr', hl'⟩ :=
      hr.cacheSet key v.bytes v.size v.toNat_size.le
    rw [Value.ofBuffer_bytes] at hl'
    exact ⟨cache', l', by rw [CacheObj.exec, hset]; rfl, hr', hl'⟩
  | get key =>
    obtain ⟨cache', l', hget, hr', hl'⟩ := hr.cacheGet key
    refine ⟨cache', l', ?_, hr', by rw [Lru.step_get, hl']⟩
    rw [CacheObj.exec, hget, Lru.step_get]
    cases Lru.find key (l.map Entry.kv) <;> rfl
  | delete key =>
    obtain ⟨cache', hdel, hr'⟩ := hr.cacheDelete key
    exact ⟨cache', without key l, by rw [CacheObj.exec, hdel]; rfl, hr', map_kv_without⟩

/-- **Refinement.** A sequence of calls to the cache never fails, keeps the invariant, and answers
as the store does. -/
theorem Rep.run (hr : cache.Rep maxmem hFn l) (calls : List (Lru.Call CStr Value)) :
    ∃ cache' l', cache.run calls = some (cache',
        (Lru.run (Lru.word Value.size maxmem) (l.map Entry.kv) calls).2.map Answer.ofReply) ∧
      cache'.Rep maxmem hFn l' ∧
      l'.map Entry.kv = (Lru.run (Lru.word Value.size maxmem) (l.map Entry.kv) calls).1 := by
  induction calls generalizing cache l with
  | nil => exact ⟨cache, l, rfl, hr, rfl⟩
  | cons call calls ih =>
    obtain ⟨cache₁, l₁, hexec, hr₁, hl₁⟩ := hr.exec call
    obtain ⟨cache', l', hrun, hr', hl'⟩ := ih hr₁
    rw [hl₁] at hrun hl'
    refine ⟨cache', l', ?_, hr', hl'⟩
    rw [CacheObj.run, hexec]
    simp only [Option.bind_eq_bind, Option.bind_some, hrun]
    rfl

/-! ## Destruction

Buckets are emptied from the front, entry by entry, and the invariant holds in between; a list
that has lost every bucket is empty, because every entry is in some bucket. -/

theorem Rep.length_lt (hr : cache.Rep maxmem hFn l) : l.length < cache.links.next + 1 := by
  obtain ⟨ch, hc⟩ := hr.chained
  have hlen := Heap.length_le_next (h := cache.links) hr.distinct.link fun a ha ↦ by
    obtain ⟨e, he, rfl⟩ := List.mem_map.mp ha
    obtain ⟨o, ho, -⟩ := hc.link_cell he
    exact ⟨o, ho⟩
  rw [List.length_map] at hlen
  exact Nat.lt_succ_of_le hlen

theorem Rep.bucketOf_eq {cache' : CacheObj} {l' : List Entry} (hr : cache.Rep maxmem hFn l)
    (hr' : cache'.Rep maxmem hFn l') (hsize : cache'.tableSize = cache.tableSize) (key : CStr) :
    cache'.bucketOf key = cache.bucketOf key := by
  rw [bucketOf, bucketOf, hsize, hr'.hash, hr.hash]

theorem Rep.destroyBucket {i fuel : ℕ} (hr : cache.Rep maxmem hFn l) (hi : i < cache.tableSize)
    (hfuel : l.length < fuel) :
    ∃ cache' l', destroyBucket fuel cache i = some cache' ∧ cache'.Rep maxmem hFn l' ∧
      cache'.tableSize = cache.tableSize ∧ ∀ e ∈ l', e ∈ l ∧ cache.bucketOf e.key ≠ i := by
  induction fuel generalizing cache l with
  | zero => exact absurd hfuel (Nat.not_lt_zero _)
  | succ fuel ih =>
    obtain ⟨ch, hc⟩ := hr.chained
    have hload : cache.load (.bucket i) = some ((ch i).head?.map Entry.link) :=
      load_ptrAfter [] (ch i) hi (hc.seg i hi)
    cases hchain : ch i with
    | nil =>
      rw [hchain] at hload
      refine ⟨cache, l, ?_, hr, rfl, fun e he ↦ ⟨he, fun hei ↦ ?_⟩⟩
      · rw [CacheObj.destroyBucket, hload]
        rfl
      · have hmem := hc.mem_own_chain he
        rw [hei, hchain] at hmem
        exact absurd hmem List.not_mem_nil
    | cons e post =>
      rw [hchain] at hload
      have hmem : e ∈ ch i := by simp [hchain]
      obtain ⟨he, rfl⟩ := (hc.mem_chain i hi e).mp hmem
      -- the loop deletes the head of the chain until there is none
      obtain ⟨l₁, l₂, rfl⟩ := List.append_of_mem he
      obtain ⟨cache₁, hdel, hsize₁, hr₁⟩ := hr.delLink hc (hchain.trans (List.nil_append _).symm)
      obtain ⟨cache', l', hloop, hr', hsize', hsub⟩ := ih hr₁ (hsize₁ ▸ hi) (by
        simp only [List.length_append, List.length_cons] at hfuel ⊢
        omega)
      refine ⟨cache', l', ?_, hr', hsize'.trans hsize₁, fun e' he' ↦ ?_⟩
      · rw [CacheObj.destroyBucket, hload]
        simp only [List.head?_cons, Option.map_some, Option.bind_eq_bind, Option.bind_some]
        have hhead : cache.delLink (.bucket (cache.bucketOf e.key)) = some cache₁ := hdel
        rw [hhead]
        exact hloop
      · obtain ⟨hmem', hne⟩ := hsub e' he'
        rw [hr.bucketOf_eq hr₁ hsize₁] at hne
        refine ⟨?_, hne⟩
        simp only [List.mem_append, List.mem_cons] at hmem' ⊢
        tauto

/-- The outer loop of `destroy_cache` leaves the entries of the buckets that are still to come. -/
theorem Rep.destroyBuckets {m : ℕ} (hr : cache.Rep maxmem hFn l) (hm : m ≤ cache.tableSize) :
    ∃ cache' l', (List.range m).foldlM
        (fun c i ↦ CacheObj.destroyBucket (c.links.next + 1) c i) cache = some cache' ∧
      cache'.Rep maxmem hFn l' ∧ cache'.tableSize = cache.tableSize ∧
      ∀ e ∈ l', m ≤ cache.bucketOf e.key := by
  induction m with
  | zero => exact ⟨cache, l, rfl, hr, rfl, fun _ _ ↦ Nat.zero_le _⟩
  | succ m ih =>
    obtain ⟨cache₁, l₁, hfold, hr₁, hsize₁, hlater⟩ := ih (Nat.le_of_succ_le hm)
    obtain ⟨cache', l', hbucket, hr', hsize', hsub⟩ :=
      hr₁.destroyBucket (hsize₁ ▸ hm : m < cache₁.tableSize) hr₁.length_lt
    refine ⟨cache', l', ?_, hr', hsize'.trans hsize₁, fun e he ↦ ?_⟩
    · rw [List.range_succ, List.foldlM_append, hfold]
      simp only [Option.bind_eq_bind, Option.bind_some, List.foldlM_cons, List.foldlM_nil,
        hbucket]
      rfl
    · obtain ⟨hmem, hne⟩ := hsub e he
      rw [hr.bucketOf_eq hr₁ hsize₁] at hne
      exact lt_of_le_of_ne (hlater e hmem) (Ne.symm hne)

/-- **`destroy_cache`** meets no dangling pointer. Its loops leave a cache without entries, and
every node of the policy is freed. -/
theorem Rep.destroyCache_empties (hr : cache.Rep maxmem hFn l) :
    ∃ cache' infos, (List.range cache.tableSize).foldlM
        (fun c i ↦ CacheObj.destroyBucket (c.links.next + 1) c i) cache = some cache' ∧
      cache'.Rep maxmem hFn [] ∧
      cache.destroyCache = some (cache'.links, cache'.keys, infos) ∧
      ∀ a, infos.cell a = none := by
  obtain ⟨cache', l', hfold, hr', -, hlater⟩ := hr.destroyBuckets le_rfl
  obtain ⟨ch, hc⟩ := hr.chained
  have hnil : l' = [] := by
    refine List.eq_nil_iff_forall_not_mem.mpr fun e he ↦ ?_
    exact absurd (hlater e he) (hc.bucketOf_lt e.key).not_ge
  obtain ⟨infos, hdelete, hfree⟩ := PolicyObj.deletePolicy_spec hr'.policy
  refine ⟨cache', infos, hfold, hnil ▸ hr', ?_, hfree⟩
  simp only [CacheObj.destroyCache, hfold, hdelete, Option.bind_eq_bind, Option.bind_some]

theorem Rep.destroyCache (hr : cache.Rep maxmem hFn l) :
    ∃ links keys infos, cache.destroyCache = some (links, keys, infos) ∧
      ∀ a, infos.cell a = none := by
  obtain ⟨cache', infos, -, -, hdestroy, hfree⟩ := hr.destroyCache_empties
  exact ⟨cache'.links, cache'.keys, infos, hdestroy, hfree⟩

end CacheObj

end NetCache
