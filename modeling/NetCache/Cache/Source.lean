import NetCache.Lru.Entries
import NetCache.Policy.Source
import NetCache.Text.Bytes

/-!
# The chained hash table

`impl/hash_cache.c`, over the heaps of its link nodes and key strings.

## What may fail

As in the policy, `none` is a null or dangling dereference, a read outside an array, a failed
assertion, or a walk that never ends. A bucket is an index below `table_size`; storing through a
bucket that does not exist is a write outside the array. Searching and linking go through a
`link_t *`, which points either at a bucket or at the `next` field of a node (`LinkPtr`), as in the
source: the same pointer is read, tested and written through.

## Counters

The counters `maxmem` and `mem_used` have the arithmetic of `uint64_t`. The counters `table_size`
and `num_elements` are natural numbers: a link node takes 40 bytes, so fewer than `2 ^ 59` of them
are ever allocated at once and neither doubling can wrap.

## Values and keys

A value has a single owner, the node that holds it, so its bytes are kept in the node. A key has
two, the node and the policy, so keys are objects of their own heap, shared by address.

## Several caches

`create_cache` is also called on the heaps that earlier caches have left (`createCacheIn`). An
object that `destroy_cache` has not freed stays in the heap of the next cache, where a count of the
live objects finds it.
-/

namespace NetCache

/-- `struct key_val_obj` -/
structure KeyValObj where
  /-- The copy of the key. -/
  key : Addr
  /-- The copy of the value. -/
  val : Bytes
  /-- The size of the value. -/
  valSize : UInt32
  /-- The item's node in the policy. -/
  policyInfo : Addr

/-- `struct link_obj` -/
structure LinkObj where
  /-- The item. -/
  data : KeyValObj
  /-- The rest of the chain. -/
  next : Option Addr

/-- A `link_t *`: a bucket of the table, or the `next` field of a node. -/
inductive LinkPtr
  /-- `&cache->table[i]` -/
  | bucket (i : ℕ)
  /-- `&a->next` -/
  | next (a : Addr)

/-- `struct cache_obj`, with the heaps its objects live in. -/
structure CacheObj where
  /-- The limit. -/
  maxmem : UInt64
  /-- The total size of the values. -/
  memUsed : UInt64
  /-- The buckets; those below `tableSize` exist. -/
  table : ℕ → Option Addr
  /-- The number of buckets. -/
  tableSize : ℕ
  /-- The number of items. -/
  numElements : ℕ
  /-- The hash function. -/
  hFn : CStr → UInt64
  /-- The replacement policy, which knows an item by the address of its key. -/
  evicPolicy : PolicyObj Addr
  /-- The allocated link nodes. -/
  links : Heap LinkObj
  /-- The allocated keys. -/
  keys : Heap CStr

/-- `default_table_size` -/
def defaultTableSize : ℕ := 2503

/-! ## The default hash function

The reads are checked against the length of the key without its terminator, so a version that
read a word too many would answer `none`. -/

/-- `((uint64_t *)(key))[i]` on a little-endian machine; `none` past the terminator. -/
def loadWord (key : Bytes) (i : ℕ) : Option UInt64 :=
  (List.range 8).foldlM (fun w j ↦ do
    let b ← key[8 * i + j]?
    some (w ||| (b.toUInt64 <<< UInt64.ofNat (8 * j)))) 0

/-- `def_hash_fn`; `none` past the terminator. -/
def defHashFnRead (key : CStr) : Option UInt64 := do
  let totSize := key.bytes.length
  let out ← (List.range (totSize / 8)).foldlM (fun out i ↦ do
    let w ← loadWord key.bytes i
    some (out ^^^ w)) 0
  (List.range (totSize % 8)).foldlM (fun out i ↦ do
    let b ← key.bytes[i + totSize - totSize % 8]?
    some (out ^^^ (b.toUInt64 <<< UInt64.ofNat (i * 8)))) out

/-- `def_hash_fn` as the hash function of a cache. -/
def defHashFn (key : CStr) : UInt64 := (defHashFnRead key).getD 0

namespace CacheObj

/-- `create_cache`, in heaps that earlier caches may have used; `none` is the `NULL` that asks for
`def_hash_fn`. -/
def createCacheIn (links : Heap LinkObj) (keys : Heap CStr) (infos : Heap (PinfoObj Addr))
    (maxmem : UInt64) (hFn : Option (CStr → UInt64)) : CacheObj where
  maxmem := maxmem
  memUsed := 0
  table := fun _ ↦ none
  tableSize := defaultTableSize
  numElements := 0
  hFn := hFn.getD defHashFn
  evicPolicy := PolicyObj.createPolicyIn infos maxmem
  links := links
  keys := keys

/-- `create_cache`, for the first time. -/
def createCache (maxmem : UInt64) (hFn : Option (CStr → UInt64)) : CacheObj :=
  createCacheIn Heap.empty Heap.empty Heap.empty maxmem hFn

/-! ## Links -/

/-- `*p` -/
def load (cache : CacheObj) : LinkPtr → Option (Option Addr)
  | .bucket i => if i < cache.tableSize then some (cache.table i) else none
  | .next a => (cache.links.read a).map LinkObj.next

/-- `*p = l` -/
def store (cache : CacheObj) (p : LinkPtr) (l : Option Addr) : Option CacheObj :=
  match p with
  | .bucket i =>
    if i < cache.tableSize then
      some { cache with table := fun j ↦ if j = i then l else cache.table j }
    else none
  | .next a => do
    let links ← cache.links.modify a fun o ↦ { o with next := l }
    some { cache with links := links }

/-- `map_to_location`. A division by zero shows as a bucket outside the empty table. -/
def mapToLocation (hashVal : UInt64) (tableSize : ℕ) : ℕ := hashVal.toNat % tableSize

/-- The loop of `querry_hash`. -/
def querryHashLoop (cache : CacheObj) (key : CStr) : ℕ → LinkPtr → Option LinkPtr
  | 0, _ => none
  | fuel + 1, curItem => do
    match ← cache.load curItem with
    | none => some curItem
    | some a =>
      let o ← cache.links.read a
      let k ← cache.keys.read o.data.key
      if key = k then some curItem else querryHashLoop cache key fuel (.next a)

/-- `querry_hash`: where the key is, or would be added. A walk that outruns the number of
allocations never ends. -/
def querryHash (cache : CacheObj) (key : CStr) : Option LinkPtr :=
  querryHashLoop cache key (cache.links.next + 1)
    (.bucket (mapToLocation (cache.hFn key) cache.tableSize))

/-- `assign_to_link`. The new node comes zeroed; its data is assigned at once. -/
def assignToLink (cache : CacheObj) (linkp : LinkPtr) (data : KeyValObj) : Option CacheObj := do
  match ← cache.load linkp with
  | none =>
    let (a, links) := cache.links.alloc ⟨data, none⟩
    store { cache with links := links } linkp (some a)
  | some a =>
    let links ← cache.links.modify a fun o ↦ { o with data := data }
    some { cache with links := links }

/-- The inner loop of `resize_table`: move the chain from `curL` on. -/
def resizeChain : ℕ → CacheObj → Option Addr → Option CacheObj
  | _, cache, none => some cache
  | 0, _, some _ => none
  | fuel + 1, cache, some curL => do
    let o ← cache.links.read curL
    let links ← cache.links.modify curL fun o ↦ { o with next := none }
    let cache := { cache with links := links }
    let key ← cache.keys.read o.data.key
    let p ← cache.querryHash key
    let cache ← cache.store p (some curL)
    resizeChain fuel cache o.next

/-- `resize_table` -/
def resizeTable (cache : CacheObj) (newSize : ℕ) : Option CacheObj :=
  (List.range cache.tableSize).foldlM
    (fun c i ↦ resizeChain c.links.next c (cache.table i))
    { cache with table := fun _ ↦ none, tableSize := newSize }

/-! ## Calls -/

/-- `del_link` -/
def delLink (cache : CacheObj) (obj : LinkPtr) : Option CacheObj := do
  match ← cache.load obj with
  | none => some cache
  | some myobj =>
    let o ← cache.links.read myobj
    let cache ← cache.store obj o.next
    let keys ← cache.keys.free o.data.key
    let evicPolicy ← cache.evicPolicy.deleteInfo o.data.policyInfo
    let links ← cache.links.free myobj
    some { cache with
      memUsed := cache.memUsed - o.data.valSize.toUInt64
      numElements := cache.numElements - 1
      evicPolicy := evicPolicy
      links := links
      keys := keys }

/-- `cache_delete` -/
def cacheDelete (cache : CacheObj) (key : CStr) : Option CacheObj := do
  let p ← cache.querryHash key
  cache.delLink p

/-- `should_add_evict_deletions`. The policy names an item by the address of its key, which is
read for the deletion. -/
def shouldAddEvictDeletions (cache : CacheObj) (valSize : UInt32) : Option (CacheObj × Bool) := do
  let addRes ← cache.evicPolicy.idsToDeleteIfAdded valSize
  if addRes.shouldAdd then
    let cache ← addRes.data.foldlM (fun c id ↦ do
      let key ← c.keys.read id
      c.cacheDelete key) cache
    some (cache, true)
  else some (cache, false)

/-- `make_copy`; `none` when the buffer is shorter than what is copied. -/
def makeCopy (buffer : Bytes) (buffsize : ℕ) : Option Bytes :=
  if buffsize ≤ buffer.length then some (buffer.take buffsize) else none

/-- The first half of `add_to_cache`: copy the key and the value, and tell the policy. -/
def makeItem (cache : CacheObj) (key : CStr) (val : Bytes) (valSize : UInt32) :
    Option (CacheObj × KeyValObj) := do
  let (keyCopy, keys) := cache.keys.alloc key
  let valCopy ← makeCopy val valSize.toNat
  let (policyInfo, evicPolicy) ← cache.evicPolicy.createInfo keyCopy valSize
  some ({ cache with keys := keys, evicPolicy := evicPolicy },
    ⟨keyCopy, valCopy, valSize, policyInfo⟩)

/-- `add_to_cache` -/
def addToCache (cache : CacheObj) (key : CStr) (val : Bytes) (valSize : UInt32) :
    Option CacheObj := do
  let (cache, newItem) ← cache.makeItem key val valSize
  let linkp ← cache.querryHash key
  let cache ← cache.assignToLink linkp newItem
  let cache := { cache with
    memUsed := cache.memUsed + valSize.toUInt64
    numElements := cache.numElements + 1 }
  if cache.tableSize < cache.numElements * 2 then cache.resizeTable (cache.tableSize * 2)
  else some cache

/-- `cache_set` -/
def cacheSet (cache : CacheObj) (key : CStr) (val : Bytes) (valSize : UInt32) :
    Option CacheObj := do
  let initLink ← cache.querryHash key
  let cache ← cache.delLink initLink
  let (cache, add) ← cache.shouldAddEvictDeletions valSize
  if add then cache.addToCache key val valSize else some cache

/-- `cache_get`, with the value, `none` for `NULL`, and `*val_size`. -/
def cacheGet (cache : CacheObj) (key : CStr) : Option (CacheObj × Option Bytes × UInt32) := do
  let p ← cache.querryHash key
  match ← cache.load p with
  | some hashL =>
    let o ← cache.links.read hashL
    let evicPolicy ← cache.evicPolicy.infoGotten o.data.policyInfo
    some ({ cache with evicPolicy := evicPolicy }, some o.data.val, o.data.valSize)
  | none => some (cache, none, 0)

/-- `cache_space_used` -/
def cacheSpaceUsed (cache : CacheObj) : UInt64 := cache.memUsed

/-- The inner loop of `destroy_cache`. -/
def destroyBucket : ℕ → CacheObj → ℕ → Option CacheObj
  | 0, _, _ => none
  | fuel + 1, cache, i => do
    match ← cache.load (.bucket i) with
    | none => some cache
    | some _ =>
      let cache ← cache.delLink (.bucket i)
      destroyBucket fuel cache i

/-- `destroy_cache`; what it answers is the objects that are left. -/
def destroyCache (cache : CacheObj) :
    Option (Heap LinkObj × Heap CStr × Heap (PinfoObj Addr)) := do
  let cache ← (List.range cache.tableSize).foldlM
    (fun c i ↦ destroyBucket (c.links.next + 1) c i) cache
  let infos ← cache.evicPolicy.deletePolicy
  some (cache.links, cache.keys, infos)

/-! ## Sequences of calls

The calls are those of the abstract store, so that one sequence can be given to both. What a call
answers is what its caller receives: the bytes of a value, and the size that is assigned. -/

/-- What a caller gets back. -/
inductive Answer
  /-- The call returns nothing. -/
  | void
  /-- The value, `none` for `NULL`, and `*val_size`. -/
  | value (val : Option Bytes) (valSize : UInt32)
  deriving DecidableEq

/-- One call to the cache. -/
def exec (cache : CacheObj) : Lru.Call CStr Value → Option (CacheObj × Answer)
  | .set key v => do
    let cache ← cache.cacheSet key v.bytes v.size
    some (cache, .void)
  | .get key => do
    let (cache, val, valSize) ← cache.cacheGet key
    some (cache, .value val valSize)
  | .delete key => do
    let cache ← cache.cacheDelete key
    some (cache, .void)

/-- A sequence of calls, with what they answer. -/
def run (cache : CacheObj) : List (Lru.Call CStr Value) → Option (CacheObj × List Answer)
  | [] => some (cache, [])
  | call :: calls => do
    let (cache, answer) ← cache.exec call
    let (cache, answers) ← cache.run calls
    some (cache, answer :: answers)

end CacheObj

end NetCache
