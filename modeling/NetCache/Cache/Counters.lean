import NetCache.Cache.Contract
import NetCache.Policy.Counters

/-!
# The counters of the cache, checked

The functions of the cache that compute with counters, over an arithmetic that may refuse, as in
`Policy.Counters`.

## What is shown

Under a limit with room for one more value both counters are the exact sum over the live entries,
and the checks never stop a call: nothing wraps, nothing goes below zero, and the assertion of
`create_info` holds. `runBy_checked_createCache` says so of whole runs, in the strongest form: the
checked run, the run with wrapping arithmetic and the run of the source are the same.

## The structure

Only the functions that compute with a counter, or call one that does, have a checked version.
Searching, linking and resizing are shared, and lemmas say that they leave the counters alone. Each
checked function has two lemmas:

* with wrapping arithmetic it is the function of the source, for every cache;
* with checks it equals that function on a cache with the invariant, whose entries are within the
  limit.

The second kind needs the refinement: the eviction loop deletes entries one by one, and each
deletion must find its entry counted in what is left, which is the invariant at the next turn.
-/

namespace NetCache

namespace CacheObj

section Source

variable (C : Counting)

/-- `del_link` -/
def delLinkBy (cache : CacheObj) (obj : LinkPtr) : Option CacheObj := do
  match ← cache.load obj with
  | none => some cache
  | some myobj =>
    let o ← cache.links.read myobj
    let cache ← cache.store obj o.next
    let memUsed ← C.sub cache.memUsed o.data.valSize.toUInt64
    let keys ← cache.keys.free o.data.key
    let evicPolicy ← cache.evicPolicy.deleteInfoBy C o.data.policyInfo
    let links ← cache.links.free myobj
    some { cache with
      memUsed := memUsed
      numElements := cache.numElements - 1
      evicPolicy := evicPolicy
      links := links
      keys := keys }

/-- `cache_delete` -/
def cacheDeleteBy (cache : CacheObj) (key : CStr) : Option CacheObj := do
  let p ← cache.querryHash key
  cache.delLinkBy C p

/-- `should_add_evict_deletions` -/
def shouldAddEvictDeletionsBy (cache : CacheObj) (valSize : UInt32) :
    Option (CacheObj × Bool) := do
  let addRes ← cache.evicPolicy.idsToDeleteIfAddedBy C valSize
  if addRes.shouldAdd then
    let cache ← addRes.data.foldlM (fun c id ↦ do
      let key ← c.keys.read id
      c.cacheDeleteBy C key) cache
    some (cache, true)
  else some (cache, false)

/-- The first half of `add_to_cache`. -/
def makeItemBy (cache : CacheObj) (key : CStr) (val : Bytes) (valSize : UInt32) :
    Option (CacheObj × KeyValObj) := do
  let (keyCopy, keys) := cache.keys.alloc key
  let valCopy ← makeCopy val valSize.toNat
  let (policyInfo, evicPolicy) ← cache.evicPolicy.createInfoBy C keyCopy valSize
  some ({ cache with keys := keys, evicPolicy := evicPolicy },
    ⟨keyCopy, valCopy, valSize, policyInfo⟩)

/-- `add_to_cache` -/
def addToCacheBy (cache : CacheObj) (key : CStr) (val : Bytes) (valSize : UInt32) :
    Option CacheObj := do
  let (cache, newItem) ← cache.makeItemBy C key val valSize
  let linkp ← cache.querryHash key
  let cache ← cache.assignToLink linkp newItem
  let memUsed ← C.add cache.memUsed valSize.toUInt64
  let cache := { cache with
    memUsed := memUsed
    numElements := cache.numElements + 1 }
  if cache.tableSize < cache.numElements * 2 then cache.resizeTable (cache.tableSize * 2)
  else some cache

/-- `cache_set` -/
def cacheSetBy (cache : CacheObj) (key : CStr) (val : Bytes) (valSize : UInt32) :
    Option CacheObj := do
  let initLink ← cache.querryHash key
  let cache ← cache.delLinkBy C initLink
  let (cache, add) ← cache.shouldAddEvictDeletionsBy C valSize
  if add then cache.addToCacheBy C key val valSize else some cache

/-- One call to the cache; `cache_get` computes with no counter. -/
def execBy (cache : CacheObj) : Lru.Call CStr Value → Option (CacheObj × Answer)
  | .set key v => do
    let cache ← cache.cacheSetBy C key v.bytes v.size
    some (cache, .void)
  | .get key => do
    let (cache, val, valSize) ← cache.cacheGet key
    some (cache, .value val valSize)
  | .delete key => do
    let cache ← cache.cacheDeleteBy C key
    some (cache, .void)

/-- A sequence of calls, with what they answer. -/
def runBy (cache : CacheObj) : List (Lru.Call CStr Value) → Option (CacheObj × List Answer)
  | [] => some (cache, [])
  | call :: calls => do
    let (cache, answer) ← cache.execBy C call
    let (cache, answers) ← cache.runBy calls
    some (cache, answer :: answers)

end Source

variable {cache cache' : CacheObj} {maxmem : UInt64} {hFn : CStr → UInt64} {l : List Entry}
  {p : LinkPtr} {key : CStr} {val : Bytes} {valSize : UInt32}

/-! ## With the arithmetic of the source -/

theorem delLinkBy_wrapping (cache : CacheObj) (p : LinkPtr) :
    cache.delLinkBy .wrapping p = cache.delLink p := by
  simp only [delLinkBy, delLink, PolicyObj.deleteInfoBy_wrapping]
  rfl

theorem cacheDeleteBy_wrapping (cache : CacheObj) (key : CStr) :
    cache.cacheDeleteBy .wrapping key = cache.cacheDelete key := by
  simp only [cacheDeleteBy, cacheDelete, delLinkBy_wrapping]

theorem shouldAddEvictDeletionsBy_wrapping (cache : CacheObj) (valSize : UInt32) :
    cache.shouldAddEvictDeletionsBy .wrapping valSize = cache.shouldAddEvictDeletions valSize := by
  simp only [shouldAddEvictDeletionsBy, shouldAddEvictDeletions, cacheDeleteBy_wrapping,
    PolicyObj.idsToDeleteIfAddedBy_wrapping]

theorem addToCacheBy_wrapping (cache : CacheObj) (key : CStr) (val : Bytes) (valSize : UInt32) :
    cache.addToCacheBy .wrapping key val valSize = cache.addToCache key val valSize := by
  simp only [addToCacheBy, addToCache, makeItemBy, makeItem, PolicyObj.createInfoBy_wrapping]
  rfl

theorem cacheSetBy_wrapping (cache : CacheObj) (key : CStr) (val : Bytes) (valSize : UInt32) :
    cache.cacheSetBy .wrapping key val valSize = cache.cacheSet key val valSize := by
  simp only [cacheSetBy, cacheSet, delLinkBy_wrapping, shouldAddEvictDeletionsBy_wrapping,
    addToCacheBy_wrapping]

/-- The instrumented cache is the cache. -/
theorem runBy_wrapping (cache : CacheObj) (calls : List (Lru.Call CStr Value)) :
    cache.runBy .wrapping calls = cache.run calls := by
  have hexec : ∀ (c : CacheObj) call, c.execBy .wrapping call = c.exec call := by
    intro c call
    cases call with
    | set key v =>
      rw [execBy, cacheSetBy_wrapping]
      rfl
    | get key => rfl
    | delete key =>
      rw [execBy, cacheDeleteBy_wrapping]
      rfl
  induction calls generalizing cache with
  | nil => rfl
  | cons call calls ih =>
    rw [runBy, run, hexec]
    simp only [ih]

/-! ## What leaves the counters alone

`mem_used` is read again after the node has been made and linked. Neither step changes it. -/

theorem store_eq {v : Option Addr} (h : cache.store p v = some cache') :
    cache'.memUsed = cache.memUsed ∧ cache'.evicPolicy = cache.evicPolicy := by
  cases p with
  | bucket i =>
    obtain ⟨-, h⟩ := Option.ite_none_right_eq_some.mp h
    obtain rfl := Option.some.inj h
    exact ⟨rfl, rfl⟩
  | next a =>
    obtain ⟨links, -, h⟩ := Option.bind_eq_some_iff.mp h
    obtain rfl := Option.some.inj h
    exact ⟨rfl, rfl⟩

theorem memUsed_assignToLink {data : KeyValObj} (h : cache.assignToLink p data = some cache') :
    cache'.memUsed = cache.memUsed := by
  obtain ⟨q, -, h⟩ := Option.bind_eq_some_iff.mp h
  cases q with
  | none => exact (store_eq h).1
  | some a =>
    obtain ⟨links, -, h⟩ := Option.bind_eq_some_iff.mp h
    obtain rfl := Option.some.inj h
    rfl

theorem memUsed_makeItem {r : CacheObj × KeyValObj} (h : cache.makeItem key val valSize = some r) :
    r.1.memUsed = cache.memUsed := by
  obtain ⟨valCopy, -, h⟩ := Option.bind_eq_some_iff.mp h
  obtain ⟨⟨policyInfo, evicPolicy⟩, -, h⟩ := Option.bind_eq_some_iff.mp h
  obtain rfl := Option.some.inj h
  rfl

/-! ## With checks -/

/-- The sizes of the entries, added exactly. -/
def entrySum (l : List Entry) : ℕ := Lru.total valueSize (l.map Entry.kv)

theorem entrySum_append (l₁ l₂ : List Entry) :
    entrySum (l₁ ++ l₂) = entrySum l₁ + entrySum l₂ := by
  rw [entrySum, List.map_append, Lru.total_append]
  rfl

theorem entrySum_sublist {l₁ l₂ : List Entry} (h : l₁.Sublist l₂) : entrySum l₁ ≤ entrySum l₂ :=
  Lru.total_sublist (h.map _)

theorem size_le_entrySum {e : Entry} (he : e ∈ l) : e.val.size.toNat ≤ entrySum l := by
  obtain ⟨l₁, l₂, rfl⟩ := List.append_of_mem he
  have hcons : entrySum (e :: l₂) = e.val.size.toNat + entrySum l₂ := by
    rw [Value.toNat_size]
    rfl
  rw [entrySum_append, hcons]
  omega

theorem nodeSum_map_node (l : List Entry) : PolicyObj.nodeSum (l.map Entry.node) = entrySum l := by
  induction l with
  | nil => rfl
  | cons e l ih =>
    show e.val.size.toNat + PolicyObj.nodeSum (l.map Entry.node) = e.val.bytes.length + entrySum l
    rw [ih, Value.toNat_size]

theorem Rep.counters (hr : cache.Rep maxmem hFn l) (hl : entrySum l ≤ maxmem.toNat) :
    cache.memUsed.toNat = entrySum l ∧ cache.evicPolicy.usedMem.toNat = entrySum l := by
  refine ⟨hr.toNat_memUsed hl, ?_⟩
  rw [← nodeSum_map_node] at hl ⊢
  rw [hr.policy.used, PolicyObj.toNat_nodeTotal hl]

/-- Deleting what a search found takes no counter below zero. -/
theorem Rep.delLinkBy (hr : cache.Rep maxmem hFn l) (hl : entrySum l ≤ maxmem.toNat)
    (hquery : cache.querryHash key = some p) :
    cache.delLinkBy .checked p = cache.delLink p := by
  obtain ⟨ch, hc⟩ := hr.chained
  by_cases hk : key ∈ l.map Entry.key
  · obtain ⟨e, he, rfl⟩ := List.mem_map.mp hk
    obtain ⟨pre, post, -, hquery', hload⟩ := hc.querryHash_of_mem he
    obtain rfl : p = _ := Option.some.inj (hquery.symm.trans hquery')
    obtain ⟨o, ho, hdata⟩ := hc.link_cell he
    have hsize : o.data.valSize.toNat ≤ entrySum l := by
      rw [hdata]
      exact size_le_entrySum he
    obtain ⟨hmem, hused⟩ := hr.counters hl
    have hpolicy : cache.evicPolicy.deleteInfoBy .checked o.data.policyInfo
        = cache.evicPolicy.deleteInfo o.data.policyInfo := by
      have hrec := hr.policy
      obtain ⟨l₁, l₂, rfl⟩ := List.append_of_mem he
      rw [List.map_append, List.map_cons] at hrec
      rw [hdata] at hsize ⊢
      exact hrec.deleteInfoBy (by rw [hused]; exact hsize)
    simp only [CacheObj.delLinkBy, CacheObj.delLink, hload, Heap.read_eq ho, Option.bind_eq_bind,
      Option.bind_some]
    refine Option.bind_congr fun cache' hstore ↦ ?_
    obtain ⟨hmem', hpolicy'⟩ := store_eq hstore
    rw [hmem', hpolicy', hpolicy, Counting.checked_sub (by rwa [hmem])]
    rfl
  · obtain ⟨hquery', hload⟩ := hc.querryHash_of_notMem hk
    obtain rfl : p = _ := Option.some.inj (hquery.symm.trans hquery')
    rw [CacheObj.delLinkBy, CacheObj.delLink, hload]
    rfl

theorem Rep.cacheDeleteBy (hr : cache.Rep maxmem hFn l) (hl : entrySum l ≤ maxmem.toNat)
    (key : CStr) : cache.cacheDeleteBy .checked key = cache.cacheDelete key :=
  Option.bind_congr fun _ hquery ↦ hr.delLinkBy hl hquery

theorem Rep.evictLoopBy {gone : List Entry} (hr : cache.Rep maxmem hFn (l ++ gone))
    (hl : entrySum (l ++ gone) ≤ maxmem.toNat) :
    (gone.reverse.map Entry.keyPtr).foldlM (fun c id ↦ do
        let key ← c.keys.read id
        c.cacheDeleteBy .checked key) cache
      = (gone.reverse.map Entry.keyPtr).foldlM (fun c id ↦ do
        let key ← c.keys.read id
        c.cacheDelete key) cache := by
  induction gone using List.reverseRecOn generalizing cache with
  | nil => rfl
  | append_singleton gone e ih =>
    rw [← List.append_assoc] at hr hl
    obtain ⟨cache₁, hdel, hr₁⟩ := hr.cacheDelete e.key
    rw [without_middle hr.distinct, List.append_nil] at hr₁
    obtain ⟨ch, hc⟩ := hr.chained
    have hcell : cache.keys.cell e.keyPtr = some e.key := hc.key_cell e (by simp)
    have hfold := ih hr₁ ((entrySum_sublist (List.sublist_append_left _ _)).trans hl)
    rw [List.reverse_append, List.reverse_singleton, List.singleton_append, List.map_cons,
      List.foldlM_cons, List.foldlM_cons]
    simp only [Heap.read_eq hcell, Option.bind_eq_bind, Option.bind_some, hr.cacheDeleteBy hl,
      hdel] at hfold ⊢
    exact hfold

section Bounded

variable (hmax : maxmem.toNat ≤ 2 ^ 64 - 2 ^ 32)
include hmax

theorem Rep.shouldAddEvictDeletionsBy (hr : cache.Rep maxmem hFn l)
    (hl : entrySum l ≤ maxmem.toNat) (valSize : UInt32) :
    cache.shouldAddEvictDeletionsBy .checked valSize = cache.shouldAddEvictDeletions valSize := by
  have hsize : valSize.toNat < 2 ^ 32 := valSize.toNat_lt
  have hids : cache.evicPolicy.idsToDeleteIfAddedBy .checked valSize
      = cache.evicPolicy.idsToDeleteIfAdded valSize :=
    hr.policy.idsToDeleteIfAddedBy (by rw [nodeSum_map_node]; omega)
  have hspec := PolicyObj.idsToDeleteIfAdded_spec hr.policy valSize
  rw [CacheObj.shouldAddEvictDeletionsBy, CacheObj.shouldAddEvictDeletions, hids, hspec]
  simp only [Option.bind_eq_bind, Option.bind_some]
  by_cases hadm : valSize.toUInt64 ≤ cache.evicPolicy.maxmem
  · rw [if_pos hadm]
    -- the ids are those of the last entries, which the loop deletes
    obtain ⟨gone, hgone⟩ := Lru.evict_isPrefix
      (PolicyObj.fitsBeside cache.evicPolicy.maxmem valSize) (l.map Entry.node)
    obtain ⟨l₁, l₂, rfl, hl₁, -⟩ := List.map_eq_append_iff.mp hgone.symm
    have hloop := hr.evictLoopBy hl
    rw [← hl₁, List.length_map, ← List.map_drop, List.drop_left, ← List.map_reverse,
      List.map_map]
    -- the policy names the entries by the addresses of their keys
    have hnames : l₂.reverse.map ((fun n ↦ n.2.1) ∘ Entry.node) = l₂.reverse.map Entry.keyPtr :=
      rfl
    simp only [hnames, Option.bind_eq_bind] at hloop ⊢
    rw [hloop]
  · rw [if_neg hadm]
    rfl

theorem Rep.addToCacheBy (hr : cache.Rep maxmem hFn l) (hl : entrySum l ≤ maxmem.toNat)
    (key : CStr) (val : Bytes) (valSize : UInt32) :
    cache.addToCacheBy .checked key val valSize = cache.addToCache key val valSize := by
  have hsize : valSize.toNat < 2 ^ 32 := valSize.toNat_lt
  obtain ⟨hmem, hused⟩ := hr.counters hl
  have hmake : cache.makeItemBy .checked key val valSize = cache.makeItem key val valSize := by
    simp only [CacheObj.makeItemBy, CacheObj.makeItem,
      PolicyObj.createInfoBy_checked _ (show cache.evicPolicy.usedMem.toNat + valSize.toNat
        < 2 ^ 64 by omega)]
  rw [CacheObj.addToCacheBy, CacheObj.addToCache, hmake]
  refine Option.bind_congr fun r hitem ↦ Option.bind_congr fun p _ ↦
    Option.bind_congr fun cache' hassign ↦ ?_
  have hmem' : cache'.memUsed = cache.memUsed :=
    (memUsed_assignToLink hassign).trans (memUsed_makeItem hitem)
  rw [hmem', Counting.checked_add (by rw [hmem]; omega)]
  rfl

theorem Rep.cacheSetBy (hr : cache.Rep maxmem hFn l) (hl : entrySum l ≤ maxmem.toNat)
    (key : CStr) (val : Bytes) (valSize : UInt32) :
    cache.cacheSetBy .checked key val valSize = cache.cacheSet key val valSize := by
  obtain ⟨p, cache₁, hquery, hdel, -, hr₁⟩ := hr.delLink_querryHash key
  have hl₁ : entrySum (without key l) ≤ maxmem.toNat :=
    (entrySum_sublist List.filter_sublist).trans hl
  obtain ⟨cache₂, hevict, hr₂⟩ := hr₁.shouldAddEvictDeletions valSize
  simp only [CacheObj.cacheSetBy, CacheObj.cacheSet, hquery, hr.delLinkBy hl hquery, hdel,
    hr₁.shouldAddEvictDeletionsBy hmax hl₁, hevict, Option.bind_eq_bind, Option.bind_some]
  refine if_congr Iff.rfl ?_ rfl
  refine hr₂.addToCacheBy hmax ?_ key val valSize
  split_ifs
  · exact (entrySum_sublist (Lru.evict_isPrefix _ _).sublist).trans hl₁
  · exact hl₁

theorem Rep.execBy (hr : cache.Rep maxmem hFn l) (hl : entrySum l ≤ maxmem.toNat)
    (call : Lru.Call CStr Value) : cache.execBy .checked call = cache.exec call := by
  cases call with
  | set key v => rw [CacheObj.execBy, hr.cacheSetBy hmax hl, CacheObj.exec]
  | get key => rfl
  | delete key => rw [CacheObj.execBy, hr.cacheDeleteBy hl, CacheObj.exec]

theorem entrySum_step_le (hr : cache.Rep maxmem hFn l) (hl : entrySum l ≤ maxmem.toNat)
    (call : Lru.Call CStr Value) {l' : List Entry}
    (hstep : l'.map Entry.kv
      = (Lru.step (Lru.word Value.size maxmem) (l.map Entry.kv) call).1) :
    entrySum l' ≤ maxmem.toNat := by
  have hle : Lru.total (fun v ↦ v.size.toNat) (l.map Entry.kv) ≤ maxmem.toNat := by
    rwa [toNat_size_eq]
  rw [entrySum, hstep, Lru.step_word_eq hmax hle, ← toNat_size_eq]
  exact Lru.total_step_le hle hr.nodup_keys call

theorem Rep.runBy (hr : cache.Rep maxmem hFn l) (hl : entrySum l ≤ maxmem.toNat)
    (calls : List (Lru.Call CStr Value)) : cache.runBy .checked calls = cache.run calls := by
  induction calls generalizing cache l with
  | nil => rfl
  | cons call calls ih =>
    obtain ⟨cache₁, l₁, hexec, hr₁, hl₁⟩ := hr.exec call
    have htail := ih hr₁ (entrySum_step_le hmax hr hl call hl₁)
    rw [CacheObj.runBy, CacheObj.run, hr.execBy hmax hl, hexec]
    simp only [Option.bind_eq_bind, Option.bind_some, htail]

/-- **No counter ever wraps**: under a limit with room for one more value, no call of any sequence
is stopped by the assertion of `create_info`, by a sum that leaves `uint64_t` or by a difference
below zero. The checked run succeeds, and is the run of the cache. -/
theorem runBy_checked_createCache (hFn : Option (CStr → UInt64))
    (calls : List (Lru.Call CStr Value)) :
    ∃ r, (createCache maxmem hFn).runBy .checked calls = some r ∧
      (createCache maxmem hFn).run calls = some r ∧
      (createCache maxmem hFn).runBy .wrapping calls = some r := by
  have hr := rep_createCache maxmem hFn
  obtain ⟨cache, l, hrun, -⟩ := hr.run calls
  refine ⟨_, ?_, hrun, ?_⟩
  · rw [hr.runBy hmax (Nat.zero_le _), hrun]
  · rw [runBy_wrapping, hrun]

end Bounded

/-- The largest limit there is room for. -/
theorem runBy_checked_createCache_largest :
    ∃ r, (createCache 18446744069414584320 none).runBy .checked
      [.set aKey oneByte, .set bKey fourBytes, .delete aKey] = some r := by
  have hmax : (18446744069414584320 : UInt64).toNat ≤ 2 ^ 64 - 2 ^ 32 := by decide
  obtain ⟨r, hrun, -⟩ := runBy_checked_createCache hmax none
    [.set aKey oneByte, .set bKey fourBytes, .delete aKey]
  exact ⟨r, hrun⟩

end CacheObj

end NetCache
