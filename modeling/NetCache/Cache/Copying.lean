import NetCache.Cache.Ownership

/-!
# Copying a value within a cache

`cache_set` reads its value only when the deletions are over, so a caller who passes on the pointer
that `cache_get` gave must not have had it freed by then.

## Two ways to lose the source

The old entry of the key goes first: setting a key to its own value, or to a part of it, reads freed
memory, at any limit. Then the least recently used entries go until the new value fits. The source
has just been used, so it is the last of them, and it goes when it does not fit together with its
copy.

## The model

`cacheSetFrom` is `cache_set` for such a pointer. It is the same function up to the point where the
value is copied; there it reads the bytes from the node, and answers `none` when the node is freed.
The size may be smaller than that of the source, as a caller may copy the first part of a value.

## The result

`cacheSetFrom_eq` says when the call is a defined one, and that it then does what `cache_set` does
with a buffer of the caller's own. The condition is on the two keys, the two sizes and the limit; a
caller can check it before the call.
-/

namespace NetCache

namespace CacheObj

/-- `cache_set` when the value is the buffer of the node `src` of the same cache. It is read where
`add_to_cache` copies it; `none` when it is freed by then. -/
def cacheSetFrom (cache : CacheObj) (key : CStr) (src : Addr) (valSize : UInt32) :
    Option CacheObj := do
  let initLink ← cache.querryHash key
  let cache ← cache.delLink initLink
  let (cache, add) ← cache.shouldAddEvictDeletions valSize
  if add then do
    let o ← cache.links.read src
    cache.addToCache key o.data.val valSize
  else some cache

variable {cache cache₁ : CacheObj} {maxmem : UInt64} {hFn : CStr → UInt64} {l : List Entry}
  {key key' : CStr} {val : Bytes} {valSize n : UInt32} {e : Entry} {a : Addr}

/-- A copy of the value of an entry is a plain `cache_set` when the entry outlives the deletions,
and undefined when it does not. -/
theorem Rep.cacheSetFrom (hr : cache.Rep maxmem hFn l) (hb : cache.Balanced) (he : e ∈ l)
    (hadm : valSize.toUInt64 ≤ maxmem) (key' : CStr) :
    (e ∈ Lru.evict (fitsBeside maxmem valSize) (without key' l) →
      cache.cacheSetFrom key' e.link valSize = cache.cacheSet key' e.val.bytes valSize) ∧
    (e ∉ Lru.evict (fitsBeside maxmem valSize) (without key' l) →
      cache.cacheSetFrom key' e.link valSize = none) := by
  obtain ⟨p, cache₁, hquery, hdel, -, hr₁⟩ := hr.delLink_querryHash key'
  obtain ⟨cache₂, hevict, hr₂⟩ := hr₁.shouldAddEvictDeletions valSize
  rw [if_pos hadm] at hr₂
  rw [decide_eq_true hadm] at hevict
  simp only [CacheObj.cacheSetFrom, CacheObj.cacheSet, hquery, hdel, hevict, Option.bind_eq_bind,
    Option.bind_some, if_true]
  constructor
  · intro hmem
    obtain ⟨ch, hc⟩ := hr₂.chained
    obtain ⟨o, ho, hdata⟩ := hc.link_cell hmem
    rw [Heap.read_eq ho, Option.bind_some, hdata]
    rfl
  · intro hnotin
    have hb₂ := ((delLink_shrunk hdel).trans (shouldAddEvictDeletions_shrunk hevict)).balanced hb
    have hfreed : cache₂.links.read e.link = none := by
      cases ho : cache₂.links.cell e.link with
      | none => exact ho
      | some o =>
        -- the node would be that of an entry from before
        obtain ⟨e', he', hlink⟩ := hr₂.exists_entry hb₂ ho
        have hold := (mem_without.mp ((Lru.evict_isPrefix _ _).subset he')).1
        exact absurd (hr.distinct.eq_of_link hold he hlink ▸ he') hnotin
    rw [hfreed, Option.bind_none]

theorem fitsBeside_iff (hmax : maxmem.toNat ≤ 2 ^ 64 - 2 ^ 32)
    (hle : Lru.total valueSize (l.map Entry.kv) ≤ maxmem.toNat) :
    fitsBeside maxmem valSize l = true ↔
      Lru.total valueSize (l.map Entry.kv) + valSize.toNat ≤ maxmem.toNat := by
  have hsize : valSize.toNat < 2 ^ 32 := valSize.toNat_lt
  rw [← toNat_size_eq] at hle ⊢
  rw [fitsBeside, decide_eq_true_iff, UInt64.le_iff_toNat_le, UInt64.toNat_add,
    Lru.toNat_wordTotal_of_lt (by omega), UInt32.toNat_toUInt64, Nat.mod_eq_of_lt (by omega)]

/-- The most recent entry outlives the deletions for a value exactly when it is not the one that
is replaced, and the two values fit the limit together. -/
theorem mem_evict_without_iff (hmax : maxmem.toNat ≤ 2 ^ 64 - 2 ^ 32) {rest : List Entry}
    (key' : CStr)
    (hle : Lru.total valueSize ((e :: rest).map Entry.kv) ≤ maxmem.toNat)
    (hadm : valSize.toUInt64 ≤ maxmem) :
    e ∈ Lru.evict (fitsBeside maxmem valSize) (without key' (e :: rest)) ↔
      e.key ≠ key' ∧ e.val.size.toNat + valSize.toNat ≤ maxmem.toNat := by
  have hpre := Lru.evict_isPrefix (fitsBeside maxmem valSize) (without key' (e :: rest))
  have hsub := hpre.sublist.trans (List.filter_sublist (l := e :: rest))
  have hsize : e.val.size.toNat = valueSize e.kv.2 := Value.toNat_size e.val
  constructor
  · intro hmem
    refine ⟨(mem_without.mp (hpre.subset hmem)).2, ?_⟩
    have hnil : fitsBeside maxmem valSize [] = true := by simp [fitsBeside, hadm]
    have hfits := Lru.fits_evict hnil (without key' (e :: rest))
    rw [fitsBeside_iff hmax ((Lru.total_sublist (hsub.map _)).trans hle)] at hfits
    have hpart : valueSize e.kv.2 ≤ Lru.total valueSize
        ((Lru.evict (fitsBeside maxmem valSize) (without key' (e :: rest))).map Entry.kv) :=
      Lru.size_le_total (List.mem_map_of_mem hmem)
    omega
  · rintro ⟨hne, hboth⟩
    have halone : Lru.total valueSize ([e].map Entry.kv) = e.val.size.toNat := hsize.symm
    have hfits : fitsBeside maxmem valSize [e] = true := by
      rw [fitsBeside_iff hmax (by omega), halone]
      exact hboth
    rw [without, List.filter_cons_of_pos (by simpa using hne), Lru.evict_cons hfits]
    exact List.mem_cons_self

/-- **Copying what was just looked up** to a key, or the first part of it, is a defined call exactly
when the key is another one and the value and its copy fit the limit together. The call then
stores the bytes as `cache_set` does from a buffer of the caller's. -/
theorem cacheSetFrom_eq {hFn : Option (CStr → UInt64)} {calls : List (Lru.Call CStr Value)}
    {answers : List Answer} (hmax : maxmem.toNat ≤ 2 ^ 64 - 2 ^ 32)
    (hrun : (createCache maxmem hFn).run calls = some (cache, answers))
    (hbuf : cache.bufferNode key = some a)
    (hget : cache.cacheGet key = some (cache₁, some val, n)) (key' : CStr)
    (hsize : valSize ≤ n) :
    cache₁.cacheSetFrom key' a valSize =
      if key ≠ key' ∧ n.toNat + valSize.toNat ≤ maxmem.toNat
      then cache₁.cacheSet key' val valSize else none := by
  obtain ⟨l, hr, hb, -, hle⟩ := rep_of_run_of_le hmax hrun
  obtain ⟨e, rest, hr₁, hk₁, hl₁, hfind, rfl, rfl, rfl, rfl⟩ := hr.cacheGet_buffer hbuf hget
  have hle₁ : Lru.total valueSize ((e :: rest).map Entry.kv) ≤ maxmem.toNat := by
    rw [hl₁]
    exact Lru.total_touch_le.trans hle
  have hadm : valSize.toUInt64 ≤ maxmem := by
    have hpart : valueSize e.kv.2 ≤ Lru.total valueSize (l.map Entry.kv) :=
      Lru.size_le_total (Lru.mem_of_find hfind)
    replace hpart := (Value.toNat_size e.val).trans_le hpart
    rw [UInt64.le_iff_toNat_le, UInt32.toNat_toUInt64]
    exact (UInt32.le_iff_toNat_le.mp hsize).trans (hpart.trans hle)
  have hiff := mem_evict_without_iff hmax key' hle₁ hadm
  obtain ⟨hstays, hgoes⟩ := hr₁.cacheSetFrom (hk₁.balanced hb) List.mem_cons_self hadm key'
  split
  · rename_i h
    exact hstays (hiff.mpr h)
  · rename_i h
    exact hgoes fun hmem ↦ h (hiff.mp hmem)

/-- Under a limit of two bytes the value of `a` can be copied to `b`, but not to `a` itself. -/
theorem cacheSetFrom_eq_example : ∃ cache answers a cache₁,
    (createCache 2 none).run [.set aKey oneByte] = some (cache, answers) ∧
      cache.bufferNode aKey = some a ∧ cache.cacheGet aKey = some (cache₁, some [1], 1) ∧
      cache₁.cacheSetFrom bKey a 1 = cache₁.cacheSet bKey [1] 1 ∧
      cache₁.cacheSetFrom aKey a 1 = none := by
  have hmax : (2 : UInt64).toNat ≤ 2 ^ 64 - 2 ^ 32 := by decide
  obtain ⟨cache, l, hrun, -⟩ := run_createCache_of_le hmax none [.set aKey oneByte]
  obtain ⟨a, cache₁, -, hbuf, hget, -⟩ :=
    exists_buffer (v := oneByte) hmax hrun aKey rfl []
  refine ⟨cache, _, a, cache₁, hrun, hbuf, hget, ?_, ?_⟩
  · exact (cacheSetFrom_eq hmax hrun hbuf hget bKey (by decide)).trans (if_pos (by decide))
  · exact (cacheSetFrom_eq hmax hrun hbuf hget aKey (by decide)).trans (if_neg (by decide))

end CacheObj

end NetCache
