import NetCache.Cache.Ownership

/-!
# How the table grows

The table is doubled when its load factor passes one half, and never made smaller.

## Its size

After any calls the size of the table is the least that the largest number of entries so far asks
for (`run_tableSize_isLeast`): of the sizes that doubling can reach, the first with room for twice
as many buckets. The largest number of entries is that of the reference store, so the size depends
on the calls alone, and not on the hash function.

## What it costs

All the doublings together have relinked at most four nodes for each `cache_set` (`runRelinked_le`):
growth costs a constant for each call. The argument keeps an account. The nodes relinked so far,
with the initial size, are never more than the size of the table: a doubling relinks as many nodes
as there are entries, which is about half the old size, and adds the old size. A table that has
grown at all is less than four times its largest number of entries, and there were at least as many
sets.

## What is counted

`relinked` is stated by the sizes before and after a call. That it is the number of nodes which the
loops of `resize_table` have relinked is a theorem about these loops
(`Rep.resizeTableCounted_of_exec`).
-/

namespace NetCache

namespace CacheObj

/-! ## Sizes

Arithmetic of the sizes `2503 * 2 ^ j`. They are far apart, so the least one that is large enough
stays so until the load passes one half again. -/

/-- The sizes that the table can have with a load factor of at most one half for `n` entries. -/
def sizesFor (n : ℕ) : Set ℕ := {size | (∃ j, size = defaultTableSize * 2 ^ j) ∧ 2 * n ≤ size}

theorem sizesFor_anti {m n : ℕ} (h : m ≤ n) : sizesFor n ⊆ sizesFor m := by
  rintro size ⟨hj, hn⟩
  exact ⟨hj, (Nat.mul_le_mul_left 2 h).trans hn⟩

theorem defaultTableSize_le {size n : ℕ} (h : size ∈ sizesFor n) : defaultTableSize ≤ size := by
  obtain ⟨⟨j, rfl⟩, -⟩ := h
  exact Nat.le_mul_of_pos_right _ (Nat.two_pow_pos j)

theorem double_le {size size' m n : ℕ} (h : size ∈ sizesFor m) (h' : size' ∈ sizesFor n)
    (hlt : size < size') : size * 2 ≤ size' := by
  obtain ⟨⟨i, rfl⟩, -⟩ := h
  obtain ⟨⟨j, rfl⟩, -⟩ := h'
  have hij : i < j := by
    by_contra hji
    exact absurd (Nat.mul_le_mul_left _ (Nat.pow_le_pow_right two_pos (not_lt.mp hji)))
      (not_le.mpr hlt)
  rw [Nat.mul_assoc, ← Nat.pow_succ]
  exact Nat.mul_le_mul_left _ (Nat.pow_le_pow_right two_pos hij)

/-- **One more entry** keeps the size the least for the most entries so far. -/
theorem isLeast_grownSize {size peak n : ℕ} (h : IsLeast (sizesFor peak) size) (hn : n ≤ peak + 1) :
    IsLeast (sizesFor (max peak n)) (grownSize size n) := by
  obtain ⟨hmem, hleast⟩ := h
  have hbase : 2503 ≤ size := defaultTableSize_le hmem
  obtain ⟨⟨j, hj⟩, hpeak⟩ := hmem
  rw [grownSize]
  split
  · rename_i hlt
    have hmax : max peak n = peak + 1 := by omega
    rw [hmax]
    refine ⟨⟨⟨j + 1, by rw [hj, Nat.pow_succ, Nat.mul_assoc]⟩, by omega⟩, fun size' h' ↦ ?_⟩
    refine double_le ⟨⟨j, hj⟩, hpeak⟩ h' ?_
    have := h'.2
    omega
  · rename_i hge
    refine ⟨⟨⟨j, hj⟩, by omega⟩, fun size' h' ↦ ?_⟩
    exact hleast (sizesFor_anti (le_max_left _ _) h')

/-! ## Calls -/

variable {cache cache' : CacheObj} {maxmem : UInt64} {hFn : CStr → UInt64} {l : List Entry}

theorem grownSize_of_le {size n : ℕ} (h : 2 * n ≤ size) : grownSize size n = size :=
  if_neg (by omega)

/-- Whether or not it stores the value, `cache_set` leaves a table that is large enough, by one
doubling at most. -/
theorem cacheSet_tableSize {key : CStr} {val : Bytes} {valSize : UInt32} (hslot : cache.SlotEmpty)
    (h : cache.cacheSet key val valSize = some cache')
    (hload : 2 * cache'.numElements ≤ cache'.tableSize) :
    cache'.tableSize = grownSize cache.tableSize cache'.numElements := by
  obtain ⟨initLink, hquery, h⟩ := Option.bind_eq_some_iff.mp h
  obtain ⟨cache₁, hdel, h⟩ := Option.bind_eq_some_iff.mp h
  obtain ⟨⟨cache₂, add⟩, hevict, h⟩ := Option.bind_eq_some_iff.mp h
  have hshrunk := (delLink_shrunk hdel).trans (shouldAddEvictDeletions_shrunk hevict)
  cases add with
  | false =>
    obtain rfl := Option.some.inj h
    rw [← hshrunk.tableSize, grownSize_of_le hload]
  | true =>
    obtain ⟨hsize, hnum, -, -⟩ := addToCache_grown h fun c newItem linkp hmake hquery' ↦
      hslot key val valSize initLink cache₁ cache₂ c newItem linkp hquery hdel hevict hmake hquery'
    rw [hsize, hnum, hshrunk.tableSize]

theorem Rep.exec_tableSize (hr : cache.Rep maxmem hFn l) {l' : List Entry}
    (hr' : cache'.Rep maxmem hFn l') {call : Lru.Call CStr Value} {answer : Answer}
    (h : cache.exec call = some (cache', answer)) :
    cache'.tableSize = grownSize cache.tableSize l'.length := by
  have hload : 2 * cache'.numElements ≤ cache'.tableSize := hr'.count ▸ hr'.load_le
  rw [← hr'.count]
  cases call with
  | set key v =>
    obtain ⟨cache₁, hset, h⟩ := Option.bind_eq_some_iff.mp h
    obtain ⟨rfl, -⟩ := Prod.mk.inj (Option.some.inj h)
    exact cacheSet_tableSize hr.slotEmpty hset hload
  | get key =>
    obtain ⟨⟨cache₁, r⟩, hget, h⟩ := Option.bind_eq_some_iff.mp h
    obtain ⟨rfl, -⟩ := Prod.mk.inj (Option.some.inj h)
    obtain ⟨policy, rfl⟩ := cacheGet_eq hget
    exact (grownSize_of_le hload).symm
  | delete key =>
    obtain ⟨cache₁, hdel, h⟩ := Option.bind_eq_some_iff.mp h
    obtain ⟨rfl, -⟩ := Prod.mk.inj (Option.some.inj h)
    rw [← (cacheDelete_shrunk hdel).tableSize, grownSize_of_le hload]

/-- The nodes that a call's resizing relinks: all of them when the table grows. -/
def relinked (cache cache' : CacheObj) : ℕ :=
  if cache'.tableSize = cache.tableSize then 0 else cache'.numElements

/-- A sequence of calls, with the number of nodes relinked on the way. -/
def runRelinked (cache : CacheObj) : List (Lru.Call CStr Value) → Option (CacheObj × ℕ)
  | [] => some (cache, 0)
  | call :: calls => do
    let (cache', _) ← cache.exec call
    let (last, count) ← cache'.runRelinked calls
    some (last, cache.relinked cache' + count)

/-- **What `relinked` counts**: when a call leaves a table of another size, `add_to_cache` has
called `resize_table`, and its loops have relinked that many nodes. -/
theorem Rep.resizeTableCounted_of_exec (hr : cache.Rep maxmem hFn l) {call : Lru.Call CStr Value}
    {answer : Answer} (h : cache.exec call = some (cache', answer))
    (hne : cache'.tableSize ≠ cache.tableSize) :
    ∃ full : CacheObj, full.tableSize = cache.tableSize ∧
      full.tableSize < full.numElements * 2 ∧
      full.resizeTableCounted (full.tableSize * 2) = some (cache', cache.relinked cache') := by
  cases call with
  | set key v =>
    obtain ⟨cache₁, hset, h⟩ := Option.bind_eq_some_iff.mp h
    obtain ⟨rfl, -⟩ := Prod.mk.inj (Option.some.inj h)
    obtain ⟨room, hroom, hsize, -, hr'⟩ := hr.cacheSet_eq key v.bytes v.size
    rw [hset] at hroom
    by_cases hadm : v.size.toUInt64 ≤ maxmem
    · rw [if_pos hadm] at hroom hr'
      obtain ⟨full, e, ch, hadd, -, -, hfull, hnum, hc, -⟩ := hr'.addToCache_full
        notMem_evict_without v.toNat_size.le (fitsBeside_evict hadm _)
      rw [hadd] at hroom
      by_cases hload : full.tableSize < full.numElements * 2
      · rw [if_pos hload] at hroom
        have hpos := hc.size_pos
        obtain ⟨table, links, ch', hcounted, -, -⟩ :=
          hc.resizeTableCounted_spec (full.tableSize * 2) (by omega)
        rw [← map_fst_resizeTableCounted, hcounted] at hroom
        obtain rfl := Option.some.inj hroom
        refine ⟨full, hfull.trans hsize, hload, hcounted.trans ?_⟩
        rw [relinked, if_neg hne, List.length_cons, ← hnum]
      · rw [if_neg hload] at hroom
        obtain rfl := Option.some.inj hroom
        exact absurd (hfull.trans hsize) hne
    · rw [if_neg hadm] at hroom
      obtain rfl := Option.some.inj hroom
      exact absurd hsize hne
  | get key =>
    obtain ⟨⟨cache₁, r⟩, hget, h⟩ := Option.bind_eq_some_iff.mp h
    obtain ⟨rfl, -⟩ := Prod.mk.inj (Option.some.inj h)
    obtain ⟨policy, rfl⟩ := cacheGet_eq hget
    exact absurd rfl hne
  | delete key =>
    obtain ⟨cache₁, hdel, h⟩ := Option.bind_eq_some_iff.mp h
    obtain ⟨rfl, -⟩ := Prod.mk.inj (Option.some.inj h)
    exact absurd (cacheDelete_shrunk hdel).tableSize hne

theorem Rep.relinked_le {peak : ℕ} {l' : List Entry} (hr' : cache'.Rep maxmem hFn l')
    (hmem : cache.tableSize ∈ sizesFor peak) (hlen : l'.length ≤ peak + 1)
    (hsize : cache'.tableSize = grownSize cache.tableSize l'.length) :
    cache.tableSize + cache.relinked cache' ≤ cache'.tableSize := by
  have hbase : 2503 ≤ cache.tableSize := defaultTableSize_le hmem
  have hpeak := hmem.2
  rw [relinked, hr'.count]
  split
  · rename_i heq
    exact heq.ge
  · rename_i hne
    by_cases hgrow : cache.tableSize < l'.length * 2
    · rw [hsize, grownSize, if_pos hgrow]
      omega
    · rw [hsize, grownSize, if_neg hgrow] at hne
      exact absurd rfl hne

/-- The invariant of a run: the size is the least for the most entries so far, and what has been
relinked is paid for by the growth of the table. -/
theorem Rep.runRelinked {peak : ℕ} (hr : cache.Rep maxmem hFn l)
    (hsize : IsLeast (sizesFor peak) cache.tableSize) (hpeak : l.length ≤ peak)
    (calls : List (Lru.Call CStr Value)) :
    ∃ cache' answers count, cache.run calls = some (cache', answers) ∧
      cache.runRelinked calls = some (cache', count) ∧
      IsLeast (sizesFor (max peak (Lru.peak (Lru.word Value.size maxmem) (l.map Entry.kv) calls)))
        cache'.tableSize ∧
      cache.tableSize + count ≤ cache'.tableSize := by
  induction calls generalizing cache l peak with
  | nil =>
    refine ⟨cache, [], 0, rfl, rfl, ?_, le_rfl⟩
    rwa [Lru.peak, List.length_map, max_eq_left hpeak]
  | cons call calls ih =>
    obtain ⟨cache₁, answer, l₁, hexec, hr₁, -, hl₁, -⟩ := hr.exec_entries call
    have hsize₁ := hr.exec_tableSize hr₁ hexec
    have hlen₁ : l₁.length ≤ peak + 1 := by
      have hstep := Lru.length_step_le (C := Lru.word Value.size maxmem) (l.map Entry.kv) call
      have hsets : call.sets ≤ 1 := by cases call <;> simp [Lru.Call.sets]
      rw [← hl₁, List.length_map, List.length_map] at hstep
      omega
    have hleast : IsLeast (sizesFor (max peak l₁.length)) cache₁.tableSize := by
      rw [hsize₁]
      exact isLeast_grownSize hsize hlen₁
    obtain ⟨cache', answers, count, hrun, hcount, hleast', hpaid⟩ :=
      ih hr₁ hleast (le_max_right _ _)
    refine ⟨cache', answer :: answers, cache.relinked cache₁ + count, ?_, ?_, ?_, ?_⟩
    · rw [CacheObj.run, hexec]
      simp only [Option.bind_eq_bind, Option.bind_some, hrun]
    · rw [CacheObj.runRelinked, hexec]
      simp only [Option.bind_eq_bind, Option.bind_some, hcount]
    · have hrest := Lru.length_le_peak (C := Lru.word Value.size maxmem) (l₁.map Entry.kv) calls
      rw [List.length_map] at hrest
      rw [Lru.peak, List.length_map, ← hl₁, show ∀ P, l₁.length ≤ P →
        max peak (max l.length P) = max (max peak l₁.length) P from fun P _ ↦ by omega]
      · exact hleast'
      · exact hrest
    · have hfirst := hr₁.relinked_le hsize.1 hlen₁ hsize₁
      omega

theorem isLeast_createCache (maxmem : UInt64) (hFn : Option (CStr → UInt64)) :
    IsLeast (sizesFor 0) (createCache maxmem hFn).tableSize :=
  ⟨⟨⟨0, rfl⟩, Nat.zero_le _⟩, fun _ h ↦ defaultTableSize_le h⟩

/-- A size that is the least for `n` entries is the first one, or less than four times `n`. -/
theorem lt_of_isLeast {size n : ℕ} (h : IsLeast (sizesFor n) size) :
    size = defaultTableSize ∨ size < 4 * n := by
  obtain ⟨⟨⟨j, rfl⟩, -⟩, hleast⟩ := h
  cases j with
  | zero => exact Or.inl rfl
  | succ j =>
    right
    by_contra hge
    -- half the size would do
    have hhalf : defaultTableSize * 2 ^ j ∈ sizesFor n := by
      refine ⟨⟨j, rfl⟩, ?_⟩
      rw [Nat.pow_succ, ← Nat.mul_assoc] at hge
      omega
    have hle := hleast hhalf
    have hpos := Nat.two_pow_pos j
    rw [Nat.pow_succ, defaultTableSize] at hle
    omega

/-- **The size of the table.** After any calls the table has the least of the sizes
`2503 * 2 ^ j` that keep the load factor at one half for the largest number of entries that the
reference store had at any time; it does not shrink when entries go. -/
theorem run_tableSize_isLeast (hmax : maxmem.toNat ≤ 2 ^ 64 - 2 ^ 32)
    (hFn : Option (CStr → UInt64)) (calls : List (Lru.Call CStr Value)) :
    ∃ cache answers, (createCache maxmem hFn).run calls = some (cache, answers) ∧
      IsLeast {size | (∃ j, size = 2503 * 2 ^ j) ∧
        2 * Lru.peak (Lru.exact valueSize maxmem.toNat) [] calls ≤ size} cache.tableSize := by
  obtain ⟨cache, answers, -, hrun, -, hleast, -⟩ :=
    (rep_createCache maxmem hFn).runRelinked (isLeast_createCache maxmem hFn) le_rfl calls
  have hword : Lru.peak (Lru.word Value.size maxmem) [] calls = _ :=
    Lru.peak_word_eq hmax (Nat.zero_le _) Lru.nodup_keys_nil calls
  rw [toNat_size_eq] at hword
  rw [List.map_nil, hword, Nat.zero_max] at hleast
  exact ⟨cache, answers, hrun, hleast⟩

theorem run_tableSize_isLeast_example : ∃ cache answers,
    (createCache 4 none).run [.set aKey oneByte, .delete aKey] = some (cache, answers) ∧
      IsLeast {size | (∃ j, size = 2503 * 2 ^ j) ∧
        2 * Lru.peak (Lru.exact valueSize 4) [] [.set aKey oneByte, .delete aKey] ≤ size}
        cache.tableSize :=
  run_tableSize_isLeast (by decide) none _

/-- **Growth is paid for.** All the resizing of a run together relinks at most four nodes for each
`cache_set` in it, whatever the hash function. -/
theorem runRelinked_le (maxmem : UInt64) (hFn : Option (CStr → UInt64))
    (calls : List (Lru.Call CStr Value)) :
    ∃ cache count, (createCache maxmem hFn).runRelinked calls = some (cache, count) ∧
      count ≤ 4 * (calls.map Lru.Call.sets).sum := by
  obtain ⟨cache, -, count, -, hcount, hleast, hpaid⟩ :=
    (rep_createCache maxmem hFn).runRelinked (isLeast_createCache maxmem hFn) le_rfl calls
  have hpeak := Lru.peak_le (C := Lru.word Value.size maxmem) [] calls
  rw [List.map_nil, Nat.zero_max] at hleast
  rw [List.length_nil, Nat.zero_add] at hpeak
  refine ⟨cache, count, hcount, ?_⟩
  change defaultTableSize + count ≤ cache.tableSize at hpaid
  rcases lt_of_isLeast hleast with hsize | hsize <;> omega

end CacheObj

end NetCache
