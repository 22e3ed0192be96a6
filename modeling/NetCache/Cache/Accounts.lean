import NetCache.Cache.Source

/-!
# What the functions of the cache allocate and free

Read off the functions alone, for any cache and any outcome that is not a failure: which of them can
change the size of the table, which can allocate a link node, and what they do to the number of live
nodes.

## Independence of the invariant

None of the lemmas assumes that the cache is well formed. That makes them usable where only the text
of a function matters, such as for a bound on the table or for the order in which addresses are
handed out, and keeps the main invariant free of clauses about allocation. A function is described
by a relation between the cache before and after: `Relinked` when links were rewritten and nothing
else, `Shrunk` when entries were deleted. Both are transitive, so a loop has the relation of its
body (`foldlM_induction`).

## Balance

`Balanced` says that the counter of entries counts the link nodes and the copies of keys that are
allocated. Every function keeps it: deleting frees one of each and decrements the counter, adding
allocates one of each and increments it. The single exception is `assign_to_link` on a slot that is
not empty, which would overwrite an item in place and lose its key.

Together with the main invariant this says that nothing leaks: the number of live objects is the
number of entries, and each entry has its own.
-/

namespace NetCache

theorem foldlM_induction {α β : Type*} {R : β → β → Prop} (hrefl : ∀ b, R b b)
    (htrans : ∀ b₁ b₂ b₃, R b₁ b₂ → R b₂ b₃ → R b₁ b₃) {f : β → α → Option β}
    (hf : ∀ b a b', f b a = some b' → R b b') {as : List α} {b b' : β}
    (h : as.foldlM f b = some b') : R b b' := by
  induction as generalizing b with
  | nil =>
    obtain rfl := Option.some.inj h
    exact hrefl b
  | cons a as ih =>
    rw [List.foldlM_cons] at h
    obtain ⟨b₁, hstep, hrest⟩ := Option.bind_eq_some_iff.mp h
    exact htrans _ _ _ (hf _ _ _ hstep) (ih hrest)

namespace CacheObj

/-- The counter of entries counts the allocated link nodes, and the allocated copies of keys. -/
structure Balanced (cache : CacheObj) : Prop where
  /-- The link nodes. -/
  links : cache.links.live.card = cache.numElements
  /-- The copies of keys. -/
  keys : cache.keys.live.card = cache.numElements

/-- Links were rewritten, and nothing was allocated or freed. -/
structure Relinked (cache cache' : CacheObj) : Prop where
  /-- The same link nodes are allocated. -/
  live : cache'.links.live = cache.links.live
  /-- None was allocated. -/
  next : cache'.links.next = cache.links.next
  /-- The keys are those from before. -/
  keys : cache'.keys = cache.keys
  /-- The counter of entries is the same. -/
  numElements : cache'.numElements = cache.numElements

/-- Entries were deleted. -/
structure Shrunk (cache cache' : CacheObj) : Prop where
  /-- The table has its size. -/
  tableSize : cache'.tableSize = cache.tableSize
  /-- No link node was allocated. -/
  next : cache'.links.next = cache.links.next
  /-- What was counted as deleted was freed. -/
  balanced : cache.Balanced → cache'.Balanced

variable {cache cache' cache'' : CacheObj} {p : LinkPtr} {v : Option Addr} {key : CStr}
  {val : Bytes} {valSize : UInt32} {data : KeyValObj}

theorem Relinked.refl (cache : CacheObj) : cache.Relinked cache := ⟨rfl, rfl, rfl, rfl⟩

theorem Relinked.trans (h : cache.Relinked cache') (h' : cache'.Relinked cache'') :
    cache.Relinked cache'' where
  live := h'.live.trans h.live
  next := h'.next.trans h.next
  keys := h'.keys.trans h.keys
  numElements := h'.numElements.trans h.numElements

theorem Relinked.balanced (h : cache.Relinked cache') (hb : cache.Balanced) :
    cache'.Balanced where
  links := by rw [h.live, h.numElements, hb.links]
  keys := by rw [h.keys, h.numElements, hb.keys]

theorem Shrunk.refl (cache : CacheObj) : cache.Shrunk cache := ⟨rfl, rfl, id⟩

theorem Shrunk.trans (h : cache.Shrunk cache') (h' : cache'.Shrunk cache'') :
    cache.Shrunk cache'' where
  tableSize := h'.tableSize.trans h.tableSize
  next := h'.next.trans h.next
  balanced hb := h'.balanced (h.balanced hb)

/-! ## Links -/

theorem store_relinked (h : cache.store p v = some cache') :
    cache.Relinked cache' ∧ cache'.tableSize = cache.tableSize := by
  cases p with
  | bucket i =>
    obtain ⟨-, h⟩ := Option.ite_none_right_eq_some.mp h
    obtain rfl := Option.some.inj h
    exact ⟨⟨rfl, rfl, rfl, rfl⟩, rfl⟩
  | next a =>
    obtain ⟨links, hlinks, h⟩ := Option.bind_eq_some_iff.mp h
    obtain rfl := Option.some.inj h
    obtain ⟨x, -, rfl⟩ := Option.map_eq_some_iff.mp hlinks
    exact ⟨⟨Heap.live_update, rfl, rfl, rfl⟩, rfl⟩

theorem resizeChain_relinked {fuel : ℕ} {curL : Option Addr}
    (h : resizeChain fuel cache curL = some cache') :
    cache.Relinked cache' ∧ cache'.tableSize = cache.tableSize := by
  induction fuel generalizing cache curL with
  | zero =>
    cases curL with
    | none =>
      obtain rfl := Option.some.inj h
      exact ⟨Relinked.refl _, rfl⟩
    | some a => simp [resizeChain] at h
  | succ fuel ih =>
    cases curL with
    | none =>
      obtain rfl := Option.some.inj h
      exact ⟨Relinked.refl _, rfl⟩
    | some a =>
      obtain ⟨o, -, h⟩ := Option.bind_eq_some_iff.mp h
      obtain ⟨links, hlinks, h⟩ := Option.bind_eq_some_iff.mp h
      obtain ⟨key, -, h⟩ := Option.bind_eq_some_iff.mp h
      obtain ⟨p, -, h⟩ := Option.bind_eq_some_iff.mp h
      obtain ⟨cache₁, hstore, htail⟩ := Option.bind_eq_some_iff.mp h
      obtain ⟨x, -, rfl⟩ := Option.map_eq_some_iff.mp hlinks
      obtain ⟨hre, hsize⟩ := store_relinked hstore
      obtain ⟨hre', hsize'⟩ := ih htail
      refine ⟨Relinked.trans ⟨?_, ?_, ?_, ?_⟩ hre', hsize'.trans hsize⟩
      · exact hre.live.trans Heap.live_update
      · exact hre.next
      · exact hre.keys
      · exact hre.numElements

theorem resizeTable_relinked {newSize : ℕ} (h : cache.resizeTable newSize = some cache') :
    cache.Relinked cache' ∧ cache'.tableSize = newSize := by
  have hloop := foldlM_induction (R := fun c c' ↦ Relinked c c' ∧ c'.tableSize = c.tableSize)
    (fun c ↦ ⟨Relinked.refl c, rfl⟩)
    (fun _ _ _ h₁ h₂ ↦ ⟨h₁.1.trans h₂.1, h₂.2.trans h₁.2⟩)
    (fun _ _ _ hstep ↦ resizeChain_relinked hstep) h
  exact ⟨⟨hloop.1.live, hloop.1.next, hloop.1.keys, hloop.1.numElements⟩, hloop.2⟩

/-! ## Deletion -/

/-- **`del_link`** frees one link node and one key for the entry it stops counting. -/
theorem delLink_shrunk (h : cache.delLink p = some cache') : cache.Shrunk cache' := by
  obtain ⟨q, -, h⟩ := Option.bind_eq_some_iff.mp h
  cases q with
  | none =>
    obtain rfl := Option.some.inj h
    exact Shrunk.refl _
  | some a =>
    obtain ⟨o, -, h⟩ := Option.bind_eq_some_iff.mp h
    obtain ⟨cache₁, hstore, h⟩ := Option.bind_eq_some_iff.mp h
    obtain ⟨keys, hkeys, h⟩ := Option.bind_eq_some_iff.mp h
    obtain ⟨policy, -, h⟩ := Option.bind_eq_some_iff.mp h
    obtain ⟨links, hlinks, h⟩ := Option.bind_eq_some_iff.mp h
    obtain rfl := Option.some.inj h
    obtain ⟨hre, hsize⟩ := store_relinked hstore
    have hkeys_card := Heap.card_live_free hkeys
    have hlinks_card := Heap.card_live_free hlinks
    obtain ⟨x, -, rfl⟩ := Option.map_eq_some_iff.mp hlinks
    refine ⟨hsize, hre.next, fun hb ↦ ?_⟩
    have hb₁ := hre.balanced hb
    constructor
    · show _ = cache₁.numElements - 1
      rw [← hb₁.links, ← hlinks_card, Nat.add_sub_cancel]
    · show _ = cache₁.numElements - 1
      rw [← hb₁.keys, ← hkeys_card, Nat.add_sub_cancel]

theorem cacheDelete_shrunk (h : cache.cacheDelete key = some cache') : cache.Shrunk cache' := by
  obtain ⟨p, -, h⟩ := Option.bind_eq_some_iff.mp h
  exact delLink_shrunk h

theorem shouldAddEvictDeletions_shrunk {add : Bool}
    (h : cache.shouldAddEvictDeletions valSize = some (cache', add)) : cache.Shrunk cache' := by
  obtain ⟨addRes, -, h⟩ := Option.bind_eq_some_iff.mp h
  cases hadd : addRes.shouldAdd with
  | false =>
    rw [hadd] at h
    obtain ⟨rfl, -⟩ := Prod.mk.inj (Option.some.inj h)
    exact Shrunk.refl _
  | true =>
    rw [hadd] at h
    obtain ⟨cache₁, hloop, h⟩ := Option.bind_eq_some_iff.mp h
    obtain ⟨rfl, -⟩ := Prod.mk.inj (Option.some.inj h)
    refine foldlM_induction Shrunk.refl (fun _ _ _ h₁ h₂ ↦ h₁.trans h₂) ?_ hloop
    intro c id c' hstep
    obtain ⟨key, -, hdel⟩ := Option.bind_eq_some_iff.mp hstep
    exact cacheDelete_shrunk hdel

theorem destroyBucket_shrunk {fuel i : ℕ} (h : destroyBucket fuel cache i = some cache') :
    cache.Shrunk cache' := by
  induction fuel generalizing cache with
  | zero => simp [destroyBucket] at h
  | succ fuel ih =>
    obtain ⟨q, -, h⟩ := Option.bind_eq_some_iff.mp h
    cases q with
    | none =>
      obtain rfl := Option.some.inj h
      exact Shrunk.refl _
    | some a =>
      obtain ⟨cache₁, hdel, h⟩ := Option.bind_eq_some_iff.mp h
      exact (delLink_shrunk hdel).trans (ih h)

/-! ## Insertion -/

theorem assignToLink_grown (hload : cache.load p = some none)
    (h : cache.assignToLink p data = some cache') :
    cache'.links.live.card = cache.links.live.card + 1 ∧
      cache'.links.next = cache.links.next + 1 ∧ cache'.keys = cache.keys ∧
      cache'.numElements = cache.numElements ∧ cache'.tableSize = cache.tableSize := by
  rw [assignToLink, hload] at h
  obtain ⟨hre, hsize⟩ := store_relinked h
  refine ⟨?_, hre.next, hre.keys, hre.numElements, hsize⟩
  rw [hre.live]
  exact Heap.card_live_push

theorem makeItem_keys {r : CacheObj × KeyValObj} (h : cache.makeItem key val valSize = some r) :
    r.1.keys.live.card = cache.keys.live.card + 1 ∧ r.1.links = cache.links ∧
      r.1.numElements = cache.numElements ∧ r.1.tableSize = cache.tableSize := by
  obtain ⟨valCopy, -, h⟩ := Option.bind_eq_some_iff.mp h
  obtain ⟨⟨policyInfo, evicPolicy⟩, -, h⟩ := Option.bind_eq_some_iff.mp h
  obtain rfl := Option.some.inj h
  exact ⟨Heap.card_live_push, rfl, rfl, rfl⟩

/-- The size of the table once it holds `n` entries, as `add_to_cache` decides it. -/
def grownSize (tableSize n : ℕ) : ℕ := if tableSize < n * 2 then tableSize * 2 else tableSize

/-- **`add_to_cache`** allocates one link node and one key for the entry it counts, and doubles
the table when its load factor is over one half. -/
theorem addToCache_grown (h : cache.addToCache key val valSize = some cache')
    (hslot : ∀ c newItem linkp, cache.makeItem key val valSize = some (c, newItem) →
      c.querryHash key = some linkp → c.load linkp = some none) :
    cache'.tableSize = grownSize cache.tableSize (cache.numElements + 1) ∧
      cache'.numElements = cache.numElements + 1 ∧ cache.links.next ≤ cache'.links.next ∧
      (cache.Balanced → cache'.Balanced) := by
  obtain ⟨⟨cache₁, newItem⟩, hmake, h⟩ := Option.bind_eq_some_iff.mp h
  obtain ⟨linkp, hquery, h⟩ := Option.bind_eq_some_iff.mp h
  obtain ⟨cache₂, hassign, h⟩ := Option.bind_eq_some_iff.mp h
  obtain ⟨hkeys, hlinks, hnum, hsize⟩ := makeItem_keys hmake
  obtain ⟨hlinks₂, hnext₂, hkeys₂, hnum₂, hsize₂⟩ :=
    assignToLink_grown (hslot _ _ _ hmake hquery) hassign
  dsimp only at hkeys hlinks hnum hsize
  -- the cache before the load factor is looked at
  set cache₃ : CacheObj := { cache₂ with
    memUsed := cache₂.memUsed + valSize.toUInt64
    numElements := cache₂.numElements + 1 } with hcache₃
  have hbal : cache.Balanced → cache₃.Balanced := by
    intro hb
    constructor
    · show cache₂.links.live.card = cache₂.numElements + 1
      rw [hlinks₂, hlinks, hnum₂, hnum, hb.links]
    · show cache₂.keys.live.card = cache₂.numElements + 1
      rw [hkeys₂, hkeys, hnum₂, hnum, hb.keys]
  have hnum₃ : cache₃.numElements = cache.numElements + 1 := by
    show cache₂.numElements + 1 = _
    rw [hnum₂, hnum]
  have hsize₃ : cache₃.tableSize = cache.tableSize := hsize₂.trans hsize
  have hnext₃ : cache.links.next ≤ cache₃.links.next := by
    show _ ≤ cache₂.links.next
    rw [hnext₂, hlinks]
    exact Nat.le_succ _
  rw [grownSize, ← hnum₃, ← hsize₃]
  by_cases hload : cache₃.tableSize < cache₃.numElements * 2
  · obtain ⟨hre, hnew⟩ := resizeTable_relinked ((if_pos hload).symm.trans h)
    exact ⟨hnew.trans (if_pos hload).symm, hre.numElements, hnext₃.trans hre.next.ge,
      fun hb ↦ hre.balanced (hbal hb)⟩
  · obtain rfl := Option.some.inj ((if_neg hload).symm.trans h)
    exact ⟨(if_neg hload).symm, rfl, hnext₃, hbal⟩

end CacheObj

end NetCache
