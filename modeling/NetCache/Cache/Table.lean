import NetCache.Cache.Source

/-!
# The chains of the table

What the buckets of a table stand for.

## The invariant of a table

`Chained cache l ch` says that bucket `i` heads the chain `ch i`, that the chains hold the entries
`l` and no others, and that each entry is in the bucket its hash names. An `Entry` is an item with
the addresses of its three objects: the link node, the copy of the key, and the node in the policy.

Entries share neither nodes nor keys (`Distinct`). This is a condition on the list and not on the
heaps, and it passes to every part of the list, which is how it is used.

## Searching

`querry_hash` is a walk along one chain, and its result is named by the entries walked past:
`ptrAfter i pre` is the `link_t *` behind them. If the key is stored, the pointer leads to its node;
if not, it is the place where the chain ends (`Chained.querryHash_of_mem`,
`Chained.querryHash_of_notMem`). The caller finds out which by reading through it.

## Splicing

Writing through such a pointer replaces what follows in the chain and nothing else
(`store_ptrAfter`), whether it is a bucket or the field of a node. That is all that insertion,
removal and resizing do to a table, so each of them is one case of this rule with a different new
rest.
-/

namespace NetCache

/-- Where a `LinkObj` keeps its link. -/
def linkLayout : Layout LinkObj KeyValObj where
  next := ⟨LinkObj.next, fun p o ↦ { o with next := p }, fun _ _ ↦ rfl⟩
  data := LinkObj.data
  data_set _ _ := rfl

/-- An item of a cache, with the addresses of its three objects. -/
structure Entry where
  /-- The link node. -/
  link : Addr
  /-- The copy of the key. -/
  keyPtr : Addr
  /-- The key. -/
  key : CStr
  /-- The value. -/
  val : Value
  /-- The node in the policy. -/
  pinfo : Addr

namespace Entry

/-- What the link node of the entry holds. -/
def data (e : Entry) : KeyValObj := ⟨e.keyPtr, e.val.bytes, e.val.size, e.pinfo⟩

/-- The entry as a node of a chain. -/
def chainNode (e : Entry) : Addr × KeyValObj := (e.link, e.data)

@[simp] theorem chainNode_fst (e : Entry) : e.chainNode.1 = e.link := rfl

theorem map_chainNode_fst (l : List Entry) :
    (l.map chainNode).map Prod.fst = l.map link := by
  rw [List.map_map]
  rfl

theorem fst_mem_links {l : List Entry} {n : Addr × KeyValObj} (hn : n ∈ l.map chainNode) :
    n.1 ∈ l.map link := map_chainNode_fst l ▸ List.mem_map_of_mem hn

end Entry

/-- Entries share neither link nodes, nor copies of keys, nor keys. -/
structure Distinct (l : List Entry) : Prop where
  /-- Entries do not share a link node. -/
  link : (l.map Entry.link).Nodup
  /-- Entries do not share the copy of a key. -/
  keyPtr : (l.map Entry.keyPtr).Nodup
  /-- Entries have distinct keys. -/
  key : (l.map Entry.key).Nodup

namespace Distinct

variable {l l' l₁ l₂ : List Entry} {e e' : Entry}

theorem nil : Distinct [] := ⟨List.nodup_nil, List.nodup_nil, List.nodup_nil⟩

theorem nodup (hd : Distinct l) : l.Nodup := hd.link.of_map

theorem eq_of_key (hd : Distinct l) (he : e ∈ l) (he' : e' ∈ l) (h : e.key = e'.key) : e = e' :=
  List.inj_on_of_nodup_map hd.key he he' h

theorem eq_of_link (hd : Distinct l) (he : e ∈ l) (he' : e' ∈ l) (h : e.link = e'.link) :
    e = e' := List.inj_on_of_nodup_map hd.link he he' h

theorem of_subset (hd : Distinct l) (hnd : l'.Nodup) (hsub : l' ⊆ l) : Distinct l' where
  link := hnd.map_on fun _ h _ h' ↦ List.inj_on_of_nodup_map hd.link (hsub h) (hsub h')
  keyPtr := hnd.map_on fun _ h _ h' ↦ List.inj_on_of_nodup_map hd.keyPtr (hsub h) (hsub h')
  key := hnd.map_on fun _ h _ h' ↦ List.inj_on_of_nodup_map hd.key (hsub h) (hsub h')

theorem perm (hd : Distinct l) (hp : l.Perm l') : Distinct l' :=
  hd.of_subset (hp.nodup_iff.mp hd.nodup) hp.symm.subset

theorem cons (hd : Distinct l) (hlink : e.link ∉ l.map Entry.link)
    (hkeyPtr : e.keyPtr ∉ l.map Entry.keyPtr) (hkey : e.key ∉ l.map Entry.key) :
    Distinct (e :: l) :=
  ⟨List.nodup_cons.mpr ⟨hlink, hd.link⟩, List.nodup_cons.mpr ⟨hkeyPtr, hd.keyPtr⟩,
    List.nodup_cons.mpr ⟨hkey, hd.key⟩⟩

theorem middle (hd : Distinct (l₁ ++ e :: l₂)) : Distinct (l₁ ++ l₂) :=
  ⟨(nodup_map_middle hd.link).2, (nodup_map_middle hd.keyPtr).2, (nodup_map_middle hd.key).2⟩

end Distinct

/-- The `link_t *` behind the entries `pre` of bucket `i`. -/
def ptrAfter (i : ℕ) (pre : List Entry) : LinkPtr :=
  match pre.getLast? with
  | none => .bucket i
  | some e => .next e.link

@[simp] theorem ptrAfter_nil (i : ℕ) : ptrAfter i [] = .bucket i := rfl

@[simp] theorem ptrAfter_concat (i : ℕ) (pre : List Entry) (e : Entry) :
    ptrAfter i (pre ++ [e]) = .next e.link := by
  rw [ptrAfter, List.getLast?_concat]

namespace CacheObj

/-- The bucket of a key. -/
def bucketOf (cache : CacheObj) (key : CStr) : ℕ := mapToLocation (cache.hFn key) cache.tableSize

/-- The chains `ch` of the table hold the entries `l`. -/
structure Chained (cache : CacheObj) (l : List Entry) (ch : ℕ → List Entry) : Prop where
  /-- Each bucket heads its chain. -/
  seg : ∀ i < cache.tableSize,
    linkLayout.Seg cache.links (cache.table i) ((ch i).map Entry.chainNode) none
  /-- The chain of a bucket holds the entries that hash to it. -/
  mem_chain : ∀ i < cache.tableSize, ∀ e, e ∈ ch i ↔ e ∈ l ∧ cache.bucketOf e.key = i
  /-- The keys are stored where the entries say. -/
  key_cell : ∀ e ∈ l, cache.keys.cell e.keyPtr = some e.key
  /-- The entries are distinct. -/
  distinct : Distinct l
  /-- There is a bucket. -/
  size_pos : 0 < cache.tableSize

variable {cache : CacheObj} {l l' : List Entry} {ch : ℕ → List Entry} {e : Entry} {i : ℕ}
  {pre post : List Entry} {key : CStr}

theorem Chained.congr {cache' : CacheObj} (hc : cache.Chained l ch)
    (htable : cache'.table = cache.table) (hsize : cache'.tableSize = cache.tableSize)
    (hhash : cache'.hFn = cache.hFn) (hlinks : cache'.links = cache.links)
    (hkeys : cache'.keys = cache.keys) : cache'.Chained l ch := by
  cases cache'
  subst htable hsize hhash hlinks hkeys
  exact ⟨hc.seg, hc.mem_chain, hc.key_cell, hc.distinct, hc.size_pos⟩

theorem Chained.bucketOf_lt (hc : cache.Chained l ch) (key : CStr) :
    cache.bucketOf key < cache.tableSize := Nat.mod_lt _ hc.size_pos

theorem Chained.perm (hc : cache.Chained l ch) (hp : l.Perm l') : cache.Chained l' ch where
  seg := hc.seg
  mem_chain i hi e := (hc.mem_chain i hi e).trans (and_congr_left' hp.mem_iff)
  key_cell e he := hc.key_cell e (hp.mem_iff.mpr he)
  distinct := hc.distinct.perm hp
  size_pos := hc.size_pos

theorem Chained.mem_of_chain (hc : cache.Chained l ch) (hi : i < cache.tableSize) (he : e ∈ ch i) :
    e ∈ l := ((hc.mem_chain i hi e).mp he).1

theorem Chained.mem_own_chain (hc : cache.Chained l ch) (he : e ∈ l) :
    e ∈ ch (cache.bucketOf e.key) :=
  (hc.mem_chain _ (hc.bucketOf_lt _) e).mpr ⟨he, rfl⟩

theorem Chained.link_cell (hc : cache.Chained l ch) (he : e ∈ l) :
    ∃ o, cache.links.cell e.link = some o ∧ o.data = e.data :=
  (hc.seg _ (hc.bucketOf_lt e.key)).cell (List.mem_map_of_mem (hc.mem_own_chain he))

theorem Chained.nodup_links (hc : cache.Chained l ch) (hi : i < cache.tableSize) :
    ((ch i).map Entry.link).Nodup := by
  rw [← Entry.map_chainNode_fst]
  exact (hc.seg i hi).nodup

theorem Chained.nodup_chain (hc : cache.Chained l ch) (hi : i < cache.tableSize) :
    (ch i).Nodup := (hc.nodup_links hi).of_map

theorem Chained.disjoint_chain (hc : cache.Chained l ch) {j : ℕ} (hi : i < cache.tableSize)
    (hj : j < cache.tableSize) (hij : i ≠ j) :
    List.Disjoint ((ch i).map Entry.link) ((ch j).map Entry.link) := by
  intro a hai haj
  obtain ⟨e, he, rfl⟩ := List.mem_map.mp hai
  obtain ⟨e', he', heq⟩ := List.mem_map.mp haj
  obtain ⟨hel, hei⟩ := (hc.mem_chain i hi e).mp he
  obtain ⟨hel', hej⟩ := (hc.mem_chain j hj e').mp he'
  obtain rfl := hc.distinct.eq_of_link hel' hel heq
  exact hij (hei.symm.trans hej)

/-! ## Walking a chain

The induction is on the chain, and what is generalised is the part that has been walked past. A
node is recognised by its key, which is read from the heap of keys each time. -/

theorem load_ptrAfter (pre post : List Entry) (hi : i < cache.tableSize)
    (hs : linkLayout.Seg cache.links (cache.table i) ((pre ++ post).map Entry.chainNode) none) :
    cache.load (ptrAfter i pre) = some (post.head?.map Entry.link) := by
  rw [List.map_append] at hs
  obtain ⟨r, hpre, hpost⟩ := Layout.seg_append.mp hs
  have hr : r = post.head?.map Entry.link := by
    cases post with
    | nil => exact hpost
    | cons e post => exact hpost.1
  rw [← hr]
  induction pre using List.reverseRecOn with
  | nil =>
    obtain rfl : cache.table i = r := hpre
    rw [ptrAfter_nil, load, if_pos hi]
  | append_singleton pre e _ =>
    rw [List.map_append, List.map_singleton] at hpre
    obtain ⟨o, ho, -, hnext⟩ := hpre.next_last
    replace ho : cache.links.cell e.link = some o := ho
    rw [ptrAfter_concat, load, Heap.read_eq ho, Option.map_some]
    exact congrArg some hnext

theorem querryHashLoop_spec (pre post : List Entry) (hi : i < cache.tableSize)
    (hs : linkLayout.Seg cache.links (cache.table i) ((pre ++ post).map Entry.chainNode) none)
    (hkeys : ∀ e ∈ post, cache.keys.cell e.keyPtr = some e.key) {fuel : ℕ}
    (hfuel : post.length < fuel) :
    querryHashLoop cache key fuel (ptrAfter i pre) =
      some (ptrAfter i (pre ++ post.takeWhile fun e ↦ e.key ≠ key)) := by
  induction post generalizing pre fuel with
  | nil =>
    obtain ⟨fuel, rfl⟩ := Nat.exists_eq_succ_of_ne_zero (Nat.ne_zero_of_lt hfuel)
    rw [querryHashLoop, load_ptrAfter _ _ hi hs]
    simp
  | cons e post ih =>
    obtain ⟨fuel, rfl⟩ := Nat.exists_eq_succ_of_ne_zero (Nat.ne_zero_of_lt hfuel)
    obtain ⟨o, ho, hdata⟩ := hs.cell (n := e.chainNode) (List.mem_map_of_mem (by simp))
    have hlink : cache.links.cell e.link = some o := ho
    have hkey : cache.keys.cell o.data.key = some e.key := by
      have hodata : o.data = e.data := hdata
      rw [hodata]
      exact hkeys e List.mem_cons_self
    rw [querryHashLoop, load_ptrAfter _ _ hi hs]
    simp only [List.head?_cons, Option.map_some, Option.bind_eq_bind, Option.bind_some,
      Heap.read_eq hlink, Heap.read_eq hkey]
    by_cases hk : key = e.key
    · rw [if_pos hk, List.takeWhile_cons_of_neg (by simp [hk]), List.append_nil]
    · rw [if_neg hk, List.takeWhile_cons_of_pos (by simpa using Ne.symm hk)]
      rw [← ptrAfter_concat i pre, ih]
      · rw [List.append_assoc, List.singleton_append]
      · rwa [List.append_assoc, List.singleton_append]
      · exact fun e' he' ↦ hkeys e' (List.mem_cons_of_mem _ he')
      · exact Nat.lt_of_succ_lt_succ hfuel

/-- `querry_hash` ends behind the entries of the bucket that come before the key. -/
theorem Chained.querryHash_eq (hc : cache.Chained l ch) (key : CStr) :
    cache.querryHash key = some (ptrAfter (cache.bucketOf key)
      ((ch (cache.bucketOf key)).takeWhile fun e ↦ e.key ≠ key)) := by
  have hi := hc.bucketOf_lt key
  have hseg := hc.seg _ hi
  have hlen := hseg.length_le
  rw [List.length_map] at hlen
  exact querryHashLoop_spec [] _ hi hseg
    (fun e he ↦ hc.key_cell e (hc.mem_of_chain hi he)) (Nat.lt_succ_of_le hlen)

theorem Chained.querryHash_of_mem (hc : cache.Chained l ch) (he : e ∈ l) :
    ∃ pre post, ch (cache.bucketOf e.key) = pre ++ e :: post ∧
      cache.querryHash e.key = some (ptrAfter (cache.bucketOf e.key) pre) ∧
      cache.load (ptrAfter (cache.bucketOf e.key) pre) = some (some e.link) := by
  have hi := hc.bucketOf_lt e.key
  have hseg := hc.seg _ hi
  obtain ⟨pre, post, hsplit⟩ := List.append_of_mem (hc.mem_own_chain he)
  have hnd := hc.nodup_chain hi
  -- the walk does not stop before the entry, for no other has its key
  have hpre : ∀ e' ∈ pre, e'.key ≠ e.key := by
    intro e' he' hkey
    have hmem : e' ∈ ch (cache.bucketOf e.key) := by
      rw [hsplit]
      exact List.mem_append_left _ he'
    obtain rfl := hc.distinct.eq_of_key (hc.mem_of_chain hi hmem) he hkey
    rw [hsplit] at hnd
    exact (List.nodup_append'.mp hnd).2.2 he' List.mem_cons_self
  have hwhile : (ch (cache.bucketOf e.key)).takeWhile (fun e' ↦ e'.key ≠ e.key) = pre := by
    rw [hsplit, List.takeWhile_append_of_pos (by simpa using hpre),
      List.takeWhile_cons_of_neg (by simp), List.append_nil]
  refine ⟨pre, post, hsplit, ?_, ?_⟩
  · rw [hc.querryHash_eq, hwhile]
  · rw [load_ptrAfter _ _ hi (hsplit ▸ hseg)]
    rfl

/-- A key that is not stored is not found: the pointer is the end of the chain. -/
theorem Chained.querryHash_of_notMem (hc : cache.Chained l ch) (hk : key ∉ l.map Entry.key) :
    cache.querryHash key = some (ptrAfter (cache.bucketOf key) (ch (cache.bucketOf key))) ∧
      cache.load (ptrAfter (cache.bucketOf key) (ch (cache.bucketOf key))) = some none := by
  have hi := hc.bucketOf_lt key
  have hseg := hc.seg _ hi
  constructor
  · rw [hc.querryHash_eq, List.takeWhile_eq_self_iff.mpr]
    intro e he
    simpa using fun h : e.key = key ↦ hk (h ▸ List.mem_map_of_mem (hc.mem_of_chain hi he))
  · rw [load_ptrAfter _ [] hi (by rwa [List.append_nil])]
    rfl

/-! ## Writing a link -/

/-- Writing through the pointer behind `pre` redirects the end of that part of the chain. -/
theorem store_ptrAfter {q : Option Addr} (hi : i < cache.tableSize)
    (hs : linkLayout.Seg cache.links (cache.table i) (pre.map Entry.chainNode) q)
    (hnd : (pre.map Entry.link).Nodup) (v : Option Addr) :
    ∃ table links, cache.store (ptrAfter i pre) v
        = some { cache with table := table, links := links } ∧
      links.next = cache.links.next ∧
      linkLayout.Seg links (table i) (pre.map Entry.chainNode) v ∧
      (∀ j, j ≠ i → table j = cache.table j) ∧
      ∀ a, a ∉ pre.map Entry.link → links.cell a = cache.links.cell a := by
  induction pre using List.reverseRecOn with
  | nil =>
    refine ⟨fun j ↦ if j = i then v else cache.table j, cache.links, ?_, rfl, if_pos rfl,
      fun j hj ↦ if_neg hj, fun _ _ ↦ rfl⟩
    rw [ptrAfter_nil, store, if_pos hi]
  | append_singleton pre e _ =>
    rw [List.map_append, List.map_singleton] at hs hnd ⊢
    have he : e.link ∉ (pre.map Entry.chainNode).map Prod.fst := by
      rw [Entry.map_chainNode_fst]
      intro h
      exact (List.nodup_append'.mp hnd).2.2 h (by simp)
    obtain ⟨o, ho, -, -⟩ := hs.next_last
    refine ⟨cache.table, cache.links.update e.link (linkLayout.next.set v), ?_, rfl,
      hs.set_last he v, fun _ _ ↦ rfl, fun a ha ↦ Heap.update_ne fun h ↦ ha (by simp [h])⟩
    have hmod : cache.links.modify e.link (fun o ↦ { o with next := v })
        = some (cache.links.update e.link (linkLayout.next.set v)) := Heap.modify_eq ho
    rw [ptrAfter_concat, store, hmod]
    rfl

/-! ## Insertion and removal -/

theorem Chained.mem_chain_insert (hc : cache.Chained l ch) {j : ℕ} (hj : j < cache.tableSize)
    (e' : Entry) :
    e' ∈ Function.update ch (cache.bucketOf e.key) (ch (cache.bucketOf e.key) ++ [e]) j ↔
      e' ∈ e :: l ∧ cache.bucketOf e'.key = j := by
  by_cases hji : j = cache.bucketOf e.key
  · subst hji
    rw [Function.update_self, List.mem_append, List.mem_singleton, hc.mem_chain _ hj,
      List.mem_cons]
    constructor
    · rintro (⟨hl, hb⟩ | rfl)
      · exact ⟨Or.inr hl, hb⟩
      · exact ⟨Or.inl rfl, rfl⟩
    · rintro ⟨rfl | hl, hb⟩
      · exact Or.inr rfl
      · exact Or.inl ⟨hl, hb⟩
  · rw [Function.update_of_ne hji, hc.mem_chain j hj, List.mem_cons]
    constructor
    · rintro ⟨hl, hb⟩
      exact ⟨Or.inr hl, hb⟩
    · rintro ⟨rfl | hl, hb⟩
      · exact absurd hb.symm hji
      · exact ⟨hl, hb⟩

/-- **Insertion** at the end of its bucket's chain. -/
theorem Chained.insert (hc : cache.Chained l ch) {o : LinkObj}
    (ho : cache.links.cell e.link = some o) (hdata : o.data = e.data) (hnext : o.next = none)
    (hcell : cache.keys.cell e.keyPtr = some e.key) (hlink : e.link ∉ l.map Entry.link)
    (hkeyPtr : e.keyPtr ∉ l.map Entry.keyPtr) (hkey : e.key ∉ l.map Entry.key) :
    ∃ table links, cache.store (ptrAfter (cache.bucketOf e.key) (ch (cache.bucketOf e.key)))
        (some e.link) = some { cache with table := table, links := links } ∧
      links.next = cache.links.next ∧
      Chained { cache with table := table, links := links } (e :: l)
        (Function.update ch (cache.bucketOf e.key) (ch (cache.bucketOf e.key) ++ [e])) ∧
      ∀ a, a ∉ l.map Entry.link → links.cell a = cache.links.cell a := by
  set i := cache.bucketOf e.key with hi_def
  have hi : i < cache.tableSize := hc.bucketOf_lt e.key
  have hsub : ∀ j, j < cache.tableSize → ∀ a, a ∈ (ch j).map Entry.link → a ∈ l.map Entry.link := by
    intro j hj a ha
    obtain ⟨e', he', rfl⟩ := List.mem_map.mp ha
    exact List.mem_map_of_mem (hc.mem_of_chain hj he')
  obtain ⟨table, links, hstore, hlen, hseg, htable, hframe⟩ :=
    store_ptrAfter hi (hc.seg i hi) (hc.nodup_links hi) (some e.link)
  have ho' : links.cell e.link = some o := by
    rw [hframe _ fun h ↦ hlink (hsub i hi _ h), ho]
  refine ⟨table, links, hstore, hlen,
    ⟨?_, ?_, ?_, hc.distinct.cons hlink hkeyPtr hkey, hc.size_pos⟩,
    fun a ha ↦ hframe a fun h ↦ ha (hsub i hi a h)⟩
  · intro j hj
    by_cases hji : j = i
    · subst hji
      rw [Function.update_self, List.map_append, List.map_singleton]
      exact Layout.seg_append.mpr ⟨some e.link, hseg, rfl, o, ho', hdata, hnext⟩
    · rw [Function.update_of_ne hji]
      show linkLayout.Seg links (table j) _ none
      rw [htable j hji]
      refine (hc.seg j hj).congr fun n hn ↦ hframe _ fun h ↦ ?_
      exact hc.disjoint_chain hi hj (Ne.symm hji) h (Entry.fst_mem_links hn)
  · exact fun j hj e' ↦ hc.mem_chain_insert hj e'
  · intro e' he'
    rcases List.mem_cons.mp he' with rfl | he'
    · exact hcell
    · exact hc.key_cell e' he'

theorem Chained.mem_chain_remove {l₁ l₂ : List Entry} (hc : cache.Chained (l₁ ++ e :: l₂) ch)
    (hsplit : ch (cache.bucketOf e.key) = pre ++ e :: post) {j : ℕ} (hj : j < cache.tableSize)
    (e' : Entry) :
    e' ∈ Function.update ch (cache.bucketOf e.key) (pre ++ post) j ↔
      e' ∈ l₁ ++ l₂ ∧ cache.bucketOf e'.key = j := by
  have hold : e' ∈ l₁ ++ e :: l₂ ↔ e' = e ∨ e' ∈ l₁ ++ l₂ := by
    simp only [List.mem_append, List.mem_cons]
    tauto
  by_cases hji : j = cache.bucketOf e.key
  · subst hji
    have hchain := hc.mem_chain _ hj e'
    rw [hsplit, hold] at hchain
    rw [Function.update_self]
    by_cases hee : e' = e
    · -- neither the chain nor the table had the entry twice
      subst hee
      have hnd := hc.nodup_chain hj
      rw [hsplit] at hnd
      have hpost := List.nodup_append'.mp hnd
      have hrest : e' ∉ l₁ ++ l₂ := fun h ↦
        (nodup_map_middle hc.distinct.link).1 (List.mem_map_of_mem h)
      refine iff_of_false ?_ (fun h ↦ hrest h.1)
      intro h
      rcases List.mem_append.mp h with h | h
      · exact hpost.2.2 h List.mem_cons_self
      · exact (List.nodup_cons.mp hpost.2.1).1 h
    · simp only [List.mem_append, List.mem_cons, hee, false_or] at hchain ⊢
      exact hchain
  · rw [Function.update_of_ne hji, hc.mem_chain j hj, hold]
    constructor
    · rintro ⟨rfl | hl, hb⟩
      · exact absurd hb.symm hji
      · exact ⟨hl, hb⟩
    · rintro ⟨hl, hb⟩
      exact ⟨Or.inr hl, hb⟩

/-- **Removal** of an entry: its chain is joined around it, and its two objects are freed. -/
theorem Chained.remove {l₁ l₂ : List Entry} (hc : cache.Chained (l₁ ++ e :: l₂) ch)
    (hsplit : ch (cache.bucketOf e.key) = pre ++ e :: post) :
    ∃ o table links, cache.links.cell e.link = some o ∧ o.data = e.data ∧
      cache.store (ptrAfter (cache.bucketOf e.key) pre) o.next
        = some { cache with table := table, links := links } ∧
      links.cell e.link = some o ∧
      Chained { cache with
          table := table, links := links.erase e.link, keys := cache.keys.erase e.keyPtr }
        (l₁ ++ l₂) (Function.update ch (cache.bucketOf e.key) (pre ++ post)) := by
  set i := cache.bucketOf e.key with hi_def
  have hi : i < cache.tableSize := hc.bucketOf_lt e.key
  have hmem : e ∈ l₁ ++ e :: l₂ := by simp
  have hseg := hc.seg i hi
  rw [hsplit, List.map_append, List.map_cons] at hseg
  have hnd := hseg.nodup
  rw [List.map_append, List.map_cons, Entry.map_chainNode_fst, Entry.map_chainNode_fst,
    Entry.chainNode_fst, List.nodup_append'] at hnd
  obtain ⟨hnd_pre, hnd_post, hdisj⟩ := hnd
  obtain ⟨he_post, hnd_post⟩ := List.nodup_cons.mp hnd_post
  have he_pre : e.link ∉ pre.map Entry.link := fun h ↦ hdisj h List.mem_cons_self
  -- the chain before the entry, its node, and the chain behind it
  obtain ⟨q, hpre, rfl, o, ho, hdata, hpost⟩ := Layout.seg_append.mp hseg
  obtain ⟨table, links, hstore, -, hpre', htable, hframe⟩ :=
    store_ptrAfter hi hpre hnd_pre o.next
  have ho' : links.cell e.link = some o := (hframe _ he_pre).trans ho
  have hpost' : linkLayout.Seg links o.next (post.map Entry.chainNode) none := by
    exact Layout.Seg.congr hpost fun n hn ↦ hframe _ fun h ↦
      hdisj h (List.mem_cons_of_mem _ (Entry.fst_mem_links hn))
  refine ⟨o, table, links, ho, hdata, hstore, ho', ?_, ?_, ?_, hc.distinct.middle, hc.size_pos⟩
  · intro j hj
    show linkLayout.Seg (links.erase e.link) (table j) _ none
    by_cases hji : j = i
    · subst hji
      rw [Function.update_self, List.map_append]
      refine Layout.Seg.erase (Layout.seg_append.mpr ⟨o.next, hpre', hpost'⟩) ?_
      rw [List.map_append, Entry.map_chainNode_fst, Entry.map_chainNode_fst, List.mem_append]
      intro h
      exact h.elim he_pre he_post
    · have hdisj' := hc.disjoint_chain hi hj (Ne.symm hji)
      rw [hsplit, List.map_append, List.map_cons] at hdisj'
      rw [Function.update_of_ne hji, htable j hji]
      refine Layout.Seg.erase ((hc.seg j hj).congr fun n hn ↦ hframe _ fun h ↦ ?_) fun h ↦ ?_
      · exact hdisj' (List.mem_append_left _ h) (Entry.fst_mem_links hn)
      · rw [Entry.map_chainNode_fst] at h
        exact hdisj' (List.mem_append_right _ List.mem_cons_self) h
  · exact fun j hj e' ↦ hc.mem_chain_remove hsplit hj e'
  · intro e' he'
    have hmem' : e' ∈ l₁ ++ e :: l₂ := by
      simp only [List.mem_append, List.mem_cons] at he' ⊢
      tauto
    have hne : e'.keyPtr ≠ e.keyPtr := fun h ↦
      (nodup_map_middle hc.distinct.keyPtr).1 (h ▸ List.mem_map_of_mem he')
    show (cache.keys.erase e.keyPtr).cell e'.keyPtr = _
    rw [Heap.erase_ne hne, hc.key_cell e' hmem']

end CacheObj

end NetCache
