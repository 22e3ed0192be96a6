import NetCache.Cache.Contract
import NetCache.Cache.Resize

/-!
# Resizing and lookups

What `resize_table` is for, said without the invariant of its loops.

## Two descriptions

`ChainTable cache ch` asks of a table only that its buckets head chains that end, that the keys of
all nodes are distinct, and that each node is in the bucket its hash names. This is what one would
write down for a hash table with chains, and it can be read off a table. `Chained`, which the proofs
use, has the entries as a list of its own and asks for distinct nodes and copies of keys as well.
The two are equivalent: distinct keys make the rest distinct, because a node is in one place and a
copy holds one key (`ChainTable.distinct`).

## What resizing keeps

Resizing keeps every node with its contents, once, and puts it in the bucket its hash names in the
new table (`resizeTable_chainTable`). The entries of the new table are a permutation of those of the
old one. Every search leads to the same node, or to the end of a chain as before, and what it leads
to is stated outright: the entry with that key among those of the chains, if there is one.

The new size may be any number from one on, also a smaller one.
-/

namespace NetCache

namespace CacheObj

variable {cache : CacheObj} {l : List Entry} {ch : ℕ → List Entry} {e : Entry} {i newSize : ℕ}
  {key : CStr}

/-- The entries of the chains, bucket by bucket. -/
def entries (cache : CacheObj) (ch : ℕ → List Entry) : List Entry :=
  (List.range cache.tableSize).flatMap ch

/-- A chained table with distinct keys, each in the bucket its hash names. -/
structure ChainTable (cache : CacheObj) (ch : ℕ → List Entry) : Prop where
  /-- The chain of a bucket ends, and has the nodes of its entries. -/
  seg : ∀ i < cache.tableSize,
    linkLayout.Seg cache.links (cache.table i) ((ch i).map Entry.chainNode) none
  /-- The keys are stored where the nodes say. -/
  key_cell : ∀ i < cache.tableSize, ∀ e ∈ ch i, cache.keys.cell e.keyPtr = some e.key
  /-- No key is stored twice. -/
  keys : ((cache.entries ch).map Entry.key).Nodup
  /-- Each key is in its bucket. -/
  bucket : ∀ i < cache.tableSize, ∀ e ∈ ch i, mapToLocation (cache.hFn e.key) cache.tableSize = i
  /-- There is a bucket. -/
  size_pos : 0 < cache.tableSize

/-- What `querry_hash` leads to: a node with its contents, or the end of a chain. -/
def entryAt (cache : CacheObj) (key : CStr) : Option (Option (Addr × KeyValObj)) := do
  let p ← cache.querryHash key
  match ← cache.load p with
  | none => some none
  | some a =>
    let o ← cache.links.read a
    some (some (a, o.data))

theorem mem_entries : e ∈ cache.entries ch ↔ ∃ i < cache.tableSize, e ∈ ch i := by
  simp only [entries, List.mem_flatMap, List.mem_range]

/-! ## The two descriptions of a table -/

theorem ChainTable.distinct (ht : cache.ChainTable ch) : Distinct (cache.entries ch) := by
  have hnd : (cache.entries ch).Nodup := ht.keys.of_map
  have hcell : ∀ e ∈ cache.entries ch, cache.keys.cell e.keyPtr = some e.key := by
    intro e he
    obtain ⟨i, hi, hei⟩ := mem_entries.mp he
    exact ht.key_cell i hi e hei
  have hkeyPtr : ∀ e ∈ cache.entries ch, ∀ e' ∈ cache.entries ch,
      e.keyPtr = e'.keyPtr → e = e' := by
    intro e he e' he' h
    refine List.inj_on_of_nodup_map ht.keys he he' (Option.some.inj ?_)
    rw [← hcell e he, ← hcell e' he', h]
  refine ⟨hnd.map_on fun e he e' he' h ↦ ?_, hnd.map_on hkeyPtr, ht.keys⟩
  obtain ⟨i, hi, hei⟩ := mem_entries.mp he
  obtain ⟨j, hj, hej⟩ := mem_entries.mp he'
  obtain ⟨o, ho, hdata⟩ := (ht.seg i hi).cell (n := e.chainNode) (List.mem_map_of_mem hei)
  obtain ⟨o', ho', hdata'⟩ := (ht.seg j hj).cell (n := e'.chainNode) (List.mem_map_of_mem hej)
  -- the same node holds one item
  rw [Entry.chainNode_fst, h, ← Entry.chainNode_fst, ho', Option.some.injEq] at ho
  have hkeyEq : e.data = e'.data := by
    rw [show e.data = linkLayout.data o from hdata.symm, ← ho]
    exact hdata'
  exact hkeyPtr e he e' he' (congrArg KeyValObj.key hkeyEq)

theorem ChainTable.chained (ht : cache.ChainTable ch) : cache.Chained (cache.entries ch) ch where
  seg := ht.seg
  mem_chain i hi e := by
    constructor
    · exact fun he ↦ ⟨mem_entries.mpr ⟨i, hi, he⟩, ht.bucket i hi e he⟩
    · rintro ⟨he, hb⟩
      obtain ⟨j, hj, hej⟩ := mem_entries.mp he
      obtain rfl : j = i := (ht.bucket j hj e hej).symm.trans hb
      exact hej
  key_cell e he := by
    obtain ⟨i, hi, hei⟩ := mem_entries.mp he
    exact ht.key_cell i hi e hei
  distinct := ht.distinct
  size_pos := ht.size_pos

theorem Chained.entries_perm (hc : cache.Chained l ch) : (cache.entries ch).Perm l := by
  have hnd : (cache.entries ch).Nodup := by
    rw [entries, List.nodup_flatMap]
    refine ⟨fun i hi ↦ hc.nodup_chain (List.mem_range.mp hi), ?_⟩
    refine List.nodup_range.pairwise_of_forall_ne fun _ hi _ hj hij ↦ ?_
    intro e hei hej
    exact hc.disjoint_chain (List.mem_range.mp hi) (List.mem_range.mp hj) hij
      (List.mem_map_of_mem hei) (List.mem_map_of_mem hej)
  refine (List.perm_ext_iff_of_nodup hnd hc.distinct.nodup).mpr fun e ↦ ?_
  rw [mem_entries]
  constructor
  · rintro ⟨i, hi, he⟩
    exact hc.mem_of_chain hi he
  · exact fun he ↦ ⟨_, hc.bucketOf_lt e.key, hc.mem_own_chain he⟩

theorem Chained.chainTable (hc : cache.Chained l ch) : cache.ChainTable ch where
  seg := hc.seg
  key_cell _ hi e he := hc.key_cell e (hc.mem_of_chain hi he)
  keys := (hc.entries_perm.map Entry.key).nodup_iff.mpr hc.distinct.key
  bucket i hi e he := ((hc.mem_chain i hi e).mp he).2
  size_pos := hc.size_pos

/-! ## Searching -/

/-- A search leads to the one entry with the key, if there is one. -/
theorem Chained.entryAt_eq (hc : cache.Chained l ch) (key : CStr) :
    cache.entryAt key = some ((l.find? fun e ↦ e.key = key).map Entry.chainNode) := by
  cases hfind : l.find? fun e ↦ e.key = key with
  | none =>
    have hk : key ∉ l.map Entry.key := by
      rw [List.find?_eq_none] at hfind
      intro hmem
      obtain ⟨e, he, hek⟩ := List.mem_map.mp hmem
      exact hfind e he (by simp [hek])
    obtain ⟨hquery, hload⟩ := hc.querryHash_of_notMem hk
    simp only [entryAt, hquery, hload, Option.bind_eq_bind, Option.bind_some]
    rfl
  | some e =>
    have he : e ∈ l := List.mem_of_find?_eq_some hfind
    obtain rfl : e.key = key := by simpa using List.find?_some hfind
    obtain ⟨pre, post, -, hquery, hload⟩ := hc.querryHash_of_mem he
    obtain ⟨o, ho, hdata⟩ := hc.link_cell he
    simp only [entryAt, hquery, hload, Heap.read_eq ho, hdata, Option.bind_eq_bind,
      Option.bind_some]
    rfl

/-- **Resizing** a chained table keeps every node, once and with its contents, in the bucket its
hash names in the new table, and no search notices. -/
theorem resizeTable_chainTable (ht : cache.ChainTable ch) (hsize : 1 ≤ newSize) :
    ∃ cache' ch', cache.resizeTable newSize = some cache' ∧
      cache' = { cache with
        table := cache'.table, links := cache'.links, tableSize := newSize } ∧
      cache'.ChainTable ch' ∧ (cache'.entries ch').Perm (cache.entries ch) ∧
      ((cache'.entries ch').map Entry.link).Nodup ∧
      ∀ key, cache'.entryAt key = cache.entryAt key ∧
        cache.entryAt key
          = some (((cache.entries ch).find? fun e ↦ e.key = key).map Entry.chainNode) := by
  obtain ⟨table, links, ch', hresize, -, hc'⟩ := ht.chained.resizeTable_spec newSize hsize
  refine ⟨_, ch', hresize, rfl, hc'.chainTable, hc'.entries_perm, hc'.chainTable.distinct.link,
    fun key ↦ ?_⟩
  have hentry := ht.chained.entryAt_eq key
  exact ⟨(hc'.entryAt_eq key).trans hentry.symm, hentry⟩

/-- Two entries of a new cache, put in the one bucket of a smaller table. -/
theorem resizeTable_chainTable_two : ∃ cache answers cache',
    (createCache 100 none).run [.set aKey oneByte, .set bKey fourBytes] = some (cache, answers) ∧
      cache.resizeTable 1 = some cache' ∧ ∀ key, cache'.entryAt key = cache.entryAt key := by
  obtain ⟨cache, l, hrun, hr, -⟩ := (rep_createCache 100 none).run
    [.set aKey oneByte, .set bKey fourBytes]
  obtain ⟨ch, hc⟩ := hr.chained
  obtain ⟨cache', -, hresize, -, -, -, -, hentry⟩ :=
    resizeTable_chainTable hc.chainTable (le_refl 1)
  exact ⟨cache, _, cache', hrun, hresize, fun key ↦ (hentry key).1⟩

end CacheObj

end NetCache
