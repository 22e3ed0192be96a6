import NetCache.Cache.Contract
import NetCache.Lru.Competitive

/-!
# A cache that is filled on demand

The use that `cache.h` is made for: a caller looks a key up, and when it gets `NULL` it computes the
value and stores it. Whatever the keys, the caller always gets the value that it would have
computed, and which of its lookups succeed is told by the values alone.

## Which lookups succeed

A lookup succeeds exactly when the values of the distinct keys fetched since the last fetch of the
key, its own included, fit the limit (`fetch_found_iff`). The hash function, the size of the table
and all that was fetched before have no part in it. A larger limit never makes a lookup fail
(`fetchAll_found_mono`), if the smaller one admits all the values; a cache that drops what was
stored first has no such guarantee.

## What recency costs

What the caller has to compute is a bounded multiple of what it would have to compute with any
policy under a smaller limit, even one that knows all keys in advance (`computedBytes_mul_le`). The
comparison is with every `Lru.Plan`, in bytes.

## How it is proved

The caller is modelled on the cache (`fetch`), and on the abstract store. The refinement carries
over from single calls to fetches and to sequences of them, so the results about the store become
results about the cache; nothing is proved twice.
-/

namespace NetCache

namespace CacheObj

/-- A caller of the cache that stores what it does not find: the value it ends with, and whether
the cache had it. -/
def fetch (cache : CacheObj) (f : CStr → Value) (key : CStr) :
    Option (CacheObj × Bytes × Bool) := do
  let (cache, val, _) ← cache.cacheGet key
  match val with
  | some val => some (cache, val, true)
  | none => do
    let cache ← cache.cacheSet key (f key).bytes (f key).size
    some (cache, (f key).bytes, false)

/-- A sequence of keys, with the outcomes in order. -/
def fetchAll (cache : CacheObj) (f : CStr → Value) :
    List CStr → Option (CacheObj × List (Bytes × Bool))
  | [] => some (cache, [])
  | key :: keys => do
    let (cache, found) ← cache.fetch f key
    let (cache, rest) ← fetchAll cache f keys
    some (cache, found :: rest)

variable {cache : CacheObj} {maxmem : UInt64} {hFn : CStr → UInt64} {l : List Entry}
  {f : CStr → Value}

/-- What a caller sees of a fetch. -/
def found (r : Value × Bool) : Bytes × Bool := (r.1.bytes, r.2)

theorem Rep.fetch (hr : cache.Rep maxmem hFn l) (f : CStr → Value) (key : CStr) :
    ∃ cache' l', cache.fetch f key = some (cache',
        found (Lru.fetch (Lru.word Value.size maxmem) f (l.map Entry.kv) key).2) ∧
      cache'.Rep maxmem hFn l' ∧
      l'.map Entry.kv = (Lru.fetch (Lru.word Value.size maxmem) f (l.map Entry.kv) key).1 := by
  obtain ⟨cache₁, l₁, hget, hr₁, hl₁⟩ := hr.cacheGet key
  cases hfind : Lru.find key (l.map Entry.kv) with
  | some v =>
    rw [hfind] at hget
    rw [Lru.fetch_of_find hfind, ← hl₁]
    refine ⟨cache₁, l₁, ?_, hr₁, rfl⟩
    rw [CacheObj.fetch, hget]
    rfl
  | none =>
    rw [hfind] at hget
    rw [Lru.touch_of_none hfind] at hl₁
    obtain ⟨cache₂, l₂, hset, hr₂, hl₂⟩ :=
      hr₁.cacheSet key (f key).bytes (f key).size (f key).toNat_size.le
    rw [Value.ofBuffer_bytes, hl₁] at hl₂
    rw [Lru.fetch_of_none hfind, ← hl₂]
    refine ⟨cache₂, l₂, ?_, hr₂, rfl⟩
    rw [CacheObj.fetch, hget]
    simp only [Option.map_none, Option.bind_eq_bind, Option.bind_some, hset]
    rfl

theorem Rep.fetchAll (hr : cache.Rep maxmem hFn l) (f : CStr → Value) (keys : List CStr) :
    ∃ cache' l', cache.fetchAll f keys = some (cache',
        (Lru.fetchAll (Lru.word Value.size maxmem) f (l.map Entry.kv) keys).2.map found) ∧
      cache'.Rep maxmem hFn l' ∧
      l'.map Entry.kv = (Lru.fetchAll (Lru.word Value.size maxmem) f (l.map Entry.kv) keys).1 := by
  induction keys generalizing cache l with
  | nil => exact ⟨cache, l, rfl, hr, rfl⟩
  | cons key keys ih =>
    obtain ⟨cache₁, l₁, hfetch, hr₁, hl₁⟩ := hr.fetch f key
    obtain ⟨cache', l', hrest, hr', hl'⟩ := ih hr₁
    rw [hl₁] at hrest hl'
    refine ⟨cache', l', ?_, hr', hl'⟩
    rw [CacheObj.fetchAll, hfetch]
    simp only [Option.bind_eq_bind, Option.bind_some, hrest]
    rfl

theorem fetchAll_createCache (hmax : maxmem.toNat ≤ 2 ^ 64 - 2 ^ 32)
    (hFn : Option (CStr → UInt64)) (f : CStr → Value) (keys : List CStr) :
    ∃ cache l, (createCache maxmem hFn).fetchAll f keys = some (cache,
        (Lru.fetchAll (Lru.exact valueSize maxmem.toNat) f [] keys).2.map found) ∧
      cache.Rep maxmem (hFn.getD defHashFn) l ∧
      l.map Entry.kv = (Lru.fetchAll (Lru.exact valueSize maxmem.toNat) f [] keys).1 := by
  have hword : Lru.fetchAll (Lru.word Value.size maxmem) f [] keys = _ :=
    Lru.fetchAll_word_eq hmax (Nat.zero_le _) keys
  rw [toNat_size_eq] at hword
  rw [← hword]
  exact (rep_createCache maxmem hFn).fetchAll f keys

/-- **Which lookups succeed.** After any keys, a fetch gives the value of its key, and the cache
has it exactly when the key was fetched before and the values of the distinct keys fetched since,
its own included, fit the limit. Values beyond the limit do not count. -/
theorem fetch_found_iff (hmax : maxmem.toNat ≤ 2 ^ 64 - 2 ^ 32) (hFn : Option (CStr → UInt64))
    (f : CStr → Value) (keys : List CStr) (key : CStr) :
    ∃ cache outcomes cache' hit,
      (createCache maxmem hFn).fetchAll f keys = some (cache, outcomes) ∧
      cache.fetch f key = some (cache', (f key).bytes, hit) ∧
      (hit = true ↔ ∃ pre since, keys = pre ++ key :: since ∧ key ∉ since ∧
        Lru.reuse valueSize maxmem.toNat f key since ≤ maxmem.toNat) := by
  obtain ⟨cache, l, hall, hr, hl⟩ := fetchAll_createCache hmax hFn f keys
  obtain ⟨cache', l', hfetch, -, -⟩ := hr.fetch f key
  have hle : Lru.total valueSize (l.map Entry.kv) ≤ maxmem.toNat := by
    rw [hl, Lru.fetchAll_entries]
    exact of_decide_eq_true (Lru.fits_evict Lru.fitting_nil _)
  rw [← toNat_size_eq] at hle
  rw [Lru.fetch_word_eq hmax hle, toNat_size_eq, hl, Lru.fetch_value] at hfetch
  refine ⟨cache, _, cache', _, hall, hfetch, ?_⟩
  rw [decide_eq_true_iff]
  constructor
  · intro hmem
    by_cases hkey : key ∈ keys
    · -- split at the last fetch of the key
      obtain ⟨pre, since, rfl, hsince⟩ := Lru.exists_last hkey
      exact ⟨pre, since, rfl, hsince, (Lru.mem_keys_fetchAll_iff hsince).mp hmem⟩
    · exact absurd hmem (Lru.notMem_keys_fetchAll hkey)
  · rintro ⟨pre, since, rfl, hsince, hreuse⟩
    exact (Lru.mem_keys_fetchAll_iff hsince).mpr hreuse

/-- One byte for `a`, and four for every other key. -/
def sampleValue (key : CStr) : Value := if key = aKey then oneByte else fourBytes

theorem fetch_found_iff_example : ∃ cache outcomes cache',
    (createCache 5 none).fetchAll sampleValue [aKey, bKey] = some (cache, outcomes) ∧
      cache.fetch sampleValue aKey = some (cache', [1], true) := by
  have hmax : (5 : UInt64).toNat ≤ 2 ^ 64 - 2 ^ 32 := by decide
  obtain ⟨cache, outcomes, cache', hit, hall, hfetch, hiff⟩ :=
    fetch_found_iff hmax none sampleValue [aKey, bKey] aKey
  have hhit : hit = true := hiff.mpr ⟨[], [bKey], rfl, by decide, by decide⟩
  rw [hhit] at hfetch
  exact ⟨cache, outcomes, cache', hall, hfetch⟩

/-- **No lookup is lost to a larger limit**: where the smaller limit admits the values of all keys
fetched, the two caches give the same values, and what the smaller one finds the larger one finds,
whatever their hash functions. -/
theorem fetchAll_found_mono {maxmem' : UInt64} (hle : maxmem ≤ maxmem')
    (hmax' : maxmem'.toNat ≤ 2 ^ 64 - 2 ^ 32) (hFn hFn' : Option (CStr → UInt64))
    (f : CStr → Value) (keys : List CStr)
    (hadm : ∀ key ∈ keys, valueSize (f key) ≤ maxmem.toNat) :
    ∃ cache outcomes cache' outcomes',
      (createCache maxmem hFn).fetchAll f keys = some (cache, outcomes) ∧
      (createCache maxmem' hFn').fetchAll f keys = some (cache', outcomes') ∧
      List.Forall₂ (fun r r' ↦ r.1 = r'.1 ∧ (r.2 = true → r'.2 = true)) outcomes outcomes' := by
  rw [UInt64.le_iff_toNat_le] at hle
  obtain ⟨cache, -, hall, -⟩ := fetchAll_createCache (hle.trans hmax') hFn f keys
  obtain ⟨cache', -, hall', -⟩ := fetchAll_createCache hmax' hFn' f keys
  refine ⟨cache, _, cache', _, hall, hall', ?_⟩
  rw [List.forall₂_map_left_iff, List.forall₂_map_right_iff]
  refine (Lru.fetchAll_mono hle hadm).imp ?_
  exact fun r r' h ↦ ⟨congrArg Value.bytes h.1, h.2⟩

theorem fetchAll_found_mono_example : ∃ cache outcomes cache' outcomes',
    (createCache 4 none).fetchAll sampleValue [aKey, bKey, aKey] = some (cache, outcomes) ∧
      (createCache 5 none).fetchAll sampleValue [aKey, bKey, aKey] = some (cache', outcomes') ∧
      List.Forall₂ (fun r r' ↦ r.1 = r'.1 ∧ (r.2 = true → r'.2 = true)) outcomes outcomes' :=
  fetchAll_found_mono (by decide) (by decide) none none sampleValue _ (by decide)

/-- The bytes of the values that the caller has computed. -/
def computedBytes (outcomes : List (Bytes × Bool)) : ℕ :=
  (outcomes.map fun r ↦ if r.2 then 0 else r.1.length).sum

theorem computedBytes_map_found (answers : List (Value × Bool)) :
    computedBytes (answers.map found) = Lru.missed valueSize answers := by
  rw [computedBytes, Lru.missed, List.map_map]
  rfl

/-- **The price of recency.** Let another policy hold values within a limit that is not larger,
knowing all the keys in advance, and bring in `cost` bytes: the caller of the cache computes at most
`maxmem / (maxmem + 1 - limit)` times as much, and `maxmem` bytes more. -/
theorem computedBytes_mul_le (hmax : maxmem.toNat ≤ 2 ^ 64 - 2 ^ 32)
    (hFn : Option (CStr → UInt64)) (f : CStr → Value) {keys : List CStr} {limit cost : ℕ}
    {held : Finset CStr} (hle : limit ≤ maxmem.toNat)
    (hplan : Lru.Plan (fun key ↦ valueSize (f key)) limit keys held cost) :
    ∃ cache outcomes, (createCache maxmem hFn).fetchAll f keys = some (cache, outcomes) ∧
      computedBytes outcomes * (maxmem.toNat + 1 - limit)
        ≤ maxmem.toNat * (cost + (maxmem.toNat + 1 - limit)) := by
  obtain ⟨cache, -, hall, -⟩ := fetchAll_createCache hmax hFn f keys
  refine ⟨cache, _, hall, ?_⟩
  rw [computedBytes_map_found]
  exact Lru.missed_mul_le hle hplan

/-- A policy with four bytes has to drop one of the two values for the other. -/
theorem computedBytes_mul_le_example : ∃ cache outcomes,
    (createCache 5 none).fetchAll sampleValue [aKey, bKey] = some (cache, outcomes) ∧
      computedBytes outcomes * 2 ≤ 5 * (5 + 2) := by
  have hstart : Lru.Plan (fun key ↦ valueSize (sampleValue key)) 4 [] ∅ 0 := .start (by decide)
  have hfirst := hstart.fetch (Finset.mem_singleton_self aKey) (by decide)
  have hsecond := hfirst.fetch (Finset.mem_singleton_self bKey) (by decide)
  exact computedBytes_mul_le (by decide) none sampleValue (by decide) hsecond

end CacheObj

end NetCache
