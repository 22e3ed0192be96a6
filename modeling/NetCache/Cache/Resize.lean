import NetCache.Cache.Table

/-!
# Resizing the table

`resize_table` relinks the nodes in place: each old chain is walked while its nodes are appended,
one by one, to chains of the new table, which are found by the same search the table always uses.

## The invariant

Both loops have the same invariant, in three parts: the new table chains the nodes moved so far, the
rest of the old chains is still linked as before, and no other node was written to. While a chain is
being moved its nodes are in two structures, those moved and those left, and the two share the heap;
that their addresses are distinct is what keeps them apart (`Distinct`). `Moved` is the invariant
between two buckets.

## Order

A node is appended where the search for its key ends, which is the end of a chain of the new table,
because its key is not among those moved so far. So the search is not only reused but relied on: it
must terminate in a table that is being built, and find the place.

## Counting

A version of the loops with a counter has the number of nodes relinked as a result. The induction is
on that version, and the specification of the plain loops follows by forgetting the count.
-/

namespace NetCache

namespace CacheObj

variable {cache : CacheObj} {l moved rest : List Entry} {ch : ℕ → List Entry}

theorem Chained.update_links (hc : cache.Chained l ch) {a : Addr} {f : LinkObj → LinkObj}
    (ha : a ∉ l.map Entry.link) :
    Chained { cache with links := cache.links.update a f } l ch where
  seg i hi := (hc.seg i hi).update fun h ↦ by
    rw [Entry.map_chainNode_fst] at h
    obtain ⟨e, he, rfl⟩ := List.mem_map.mp h
    exact ha (List.mem_map_of_mem (hc.mem_of_chain hi he))
  mem_chain := hc.mem_chain
  key_cell := hc.key_cell
  distinct := hc.distinct
  size_pos := hc.size_pos

/-! ## Counting the nodes

The inner loop once more, with the number of nodes it relinks. Counting does not change what it
does, so the counted loops carry the induction and the loops of the source follow from them.
-/

/-- The body of the inner loop: relink the node `curL`, and go on with the next one. -/
def resizeTurn (cache : CacheObj) (curL : Addr) : Option (CacheObj × Option Addr) := do
  let o ← cache.links.read curL
  let links ← cache.links.modify curL fun o ↦ { o with next := none }
  let cache := { cache with links := links }
  let key ← cache.keys.read o.data.key
  let p ← cache.querryHash key
  let cache ← cache.store p (some curL)
  some (cache, o.next)

/-- `resizeChain`, with the number of nodes relinked. -/
def resizeChainCounted : ℕ → CacheObj → Option Addr → Option (CacheObj × ℕ)
  | _, cache, none => some (cache, 0)
  | 0, _, some _ => none
  | fuel + 1, cache, some curL => do
    let (cache, next) ← cache.resizeTurn curL
    let (cache, count) ← resizeChainCounted fuel cache next
    some (cache, count + 1)

/-- `resizeTable`, with the number of nodes relinked. -/
def resizeTableCounted (cache : CacheObj) (newSize : ℕ) : Option (CacheObj × ℕ) :=
  (List.range cache.tableSize).foldlM
    (fun (c, total) i ↦ do
      let (c, count) ← resizeChainCounted c.links.next c (cache.table i)
      some (c, total + count))
    ({ cache with table := fun _ ↦ none, tableSize := newSize }, 0)

theorem resizeChain_succ (fuel : ℕ) (cache : CacheObj) (curL : Addr) :
    resizeChain (fuel + 1) cache (some curL)
      = (cache.resizeTurn curL).bind fun r ↦ resizeChain fuel r.1 r.2 := by
  simp only [resizeChain, resizeTurn, Option.bind_eq_bind, Option.bind_assoc, Option.bind_some]

theorem map_fst_resizeChainCounted (fuel : ℕ) (cache : CacheObj) (curL : Option Addr) :
    (resizeChainCounted fuel cache curL).map Prod.fst = resizeChain fuel cache curL := by
  induction fuel generalizing cache curL with
  | zero => cases curL <;> rfl
  | succ fuel ih =>
    cases curL with
    | none => rfl
    | some curL =>
      rw [resizeChain_succ, resizeChainCounted, Option.bind_eq_bind, Option.map_bind]
      refine congrArg _ (funext fun (cache₁, next) ↦ ?_)
      simp only [← ih, Function.comp_apply, Option.bind_eq_bind]
      cases resizeChainCounted fuel cache₁ next <;> rfl

theorem map_fst_resizeTableCounted (cache : CacheObj) (newSize : ℕ) :
    (cache.resizeTableCounted newSize).map Prod.fst = cache.resizeTable newSize := by
  rw [resizeTableCounted, resizeTable]
  generalize List.range cache.tableSize = buckets
  generalize ({ cache with table := fun _ ↦ none, tableSize := newSize } : CacheObj) = cache₀
  generalize 0 = total
  induction buckets generalizing cache₀ total with
  | nil => rfl
  | cons i buckets ih =>
    simp only [List.foldlM_cons, ← map_fst_resizeChainCounted, Option.bind_eq_bind]
    cases resizeChainCounted cache₀.links.next cache₀ (cache.table i) with
    | none => rfl
    | some r =>
      have hrest := ih r.1 (total + r.2)
      simp only [← map_fst_resizeChainCounted, Option.bind_eq_bind] at hrest
      exact hrest

/-! ## Moving the nodes -/

theorem resizeTurn_spec {curL : Option Addr} {e : Entry} (hc : cache.Chained moved ch)
    (hs : linkLayout.Seg cache.links curL ((e :: rest).map Entry.chainNode) none)
    (hkeys : cache.keys.cell e.keyPtr = some e.key) (hd : Distinct (e :: rest ++ moved)) :
    ∃ table links ch' next, curL = some e.link ∧
      cache.resizeTurn e.link = some ({ cache with table := table, links := links }, next) ∧
      links.next = cache.links.next ∧
      Chained { cache with table := table, links := links } (e :: moved) ch' ∧
      linkLayout.Seg links next (rest.map Entry.chainNode) none ∧
      ∀ a, a ≠ e.link → a ∉ moved.map Entry.link → links.cell a = cache.links.cell a := by
  obtain ⟨rfl, o, ho, hdata, htail⟩ := hs
  replace ho : cache.links.cell e.link = some o := ho
  have hlink : e.link ∉ (rest ++ moved).map Entry.link := (List.nodup_cons.mp hd.link).1
  have hkeyPtr : e.keyPtr ∉ (rest ++ moved).map Entry.keyPtr := (List.nodup_cons.mp hd.keyPtr).1
  have hkey : e.key ∉ (rest ++ moved).map Entry.key := (List.nodup_cons.mp hd.key).1
  simp only [List.map_append, List.mem_append, not_or] at hlink hkeyPtr hkey
  have hcell : cache.keys.cell o.data.key = some e.key := by
    have hodata : o.data = e.data := hdata
    rw [hodata]
    exact hkeys
  -- `cur_l->next = NULL`
  let unlink : LinkObj → LinkObj := fun o ↦ { o with next := none }
  have hc₁ := hc.update_links (f := unlink) hlink.2
  have hquery := hc₁.querryHash_of_notMem hkey.2
  -- `*querry_hash(cache, key) = cur_l`
  obtain ⟨table, links, hstore, hnext, hc₂, hframe⟩ :=
    hc₁.insert (Heap.update_self ho) hdata rfl hkeys hlink.2 hkeyPtr.2 hkey.2
  have htail₂ : linkLayout.Seg links o.next (rest.map Entry.chainNode) none := by
    refine Layout.Seg.congr (htail.update (f := unlink) ?_) fun n hn ↦ hframe _ fun h ↦ ?_
    · rw [Entry.map_chainNode_fst]
      exact hlink.1
    · have hnd : ((rest ++ moved).map Entry.link).Nodup := (List.nodup_cons.mp hd.link).2
      rw [List.map_append] at hnd
      exact (List.nodup_append'.mp hnd).2.2 (Entry.fst_mem_links hn) h
  refine ⟨table, links, _, o.next, rfl, ?_, hnext, hc₂, htail₂, ?_⟩
  · rw [resizeTurn]
    simp only [Heap.read_eq ho, Heap.modify_eq ho, Heap.read_eq hcell, Option.bind_eq_bind,
      Option.bind_some]
    rw [hquery.1]
    simp only [Option.bind_some]
    rw [hstore]
    rfl
  · intro a hne ha
    show links.cell a = _
    rw [hframe a ha]
    exact Heap.update_ne hne

/-- The inner loop moves the rest of an old chain into the new table. -/
theorem resizeChainCounted_spec {curL : Option Addr} {fuel : ℕ} (hc : cache.Chained moved ch)
    (hs : linkLayout.Seg cache.links curL (rest.map Entry.chainNode) none)
    (hfuel : rest.length ≤ fuel)
    (hkeys : ∀ e ∈ rest, cache.keys.cell e.keyPtr = some e.key)
    (hd : Distinct (rest ++ moved)) :
    ∃ table links ch', resizeChainCounted fuel cache curL
        = some ({ cache with table := table, links := links }, rest.length) ∧
      links.next = cache.links.next ∧
      Chained { cache with table := table, links := links } (rest.reverse ++ moved) ch' ∧
      ∀ a, a ∉ (rest ++ moved).map Entry.link → links.cell a = cache.links.cell a := by
  induction rest generalizing cache moved ch curL fuel with
  | nil =>
    obtain rfl : curL = none := hs
    refine ⟨cache.table, cache.links, ch, by cases fuel <;> rfl, rfl, hc, fun _ _ ↦ rfl⟩
  | cons e rest ih =>
    obtain ⟨fuel, rfl⟩ := Nat.exists_eq_succ_of_ne_zero (Nat.ne_zero_of_lt hfuel)
    obtain ⟨table, links, ch₂, next, rfl, hturn, hnext, hc₂, htail, hframe⟩ :=
      resizeTurn_spec hc hs (hkeys e List.mem_cons_self) hd
    obtain ⟨table', links', ch', hloop, hnext', hc', hframe'⟩ :=
      ih hc₂ htail (Nat.le_of_succ_le_succ hfuel)
        (fun e' he' ↦ hkeys e' (List.mem_cons_of_mem _ he')) (hd.perm List.perm_middle.symm)
    refine ⟨table', links', ch', ?_, hnext'.trans hnext, ?_, ?_⟩
    · rw [resizeChainCounted, hturn]
      simp only [Option.bind_eq_bind, Option.bind_some, hloop, List.length_cons]
    · rwa [List.reverse_cons, List.append_assoc, List.singleton_append]
    · intro a ha
      simp only [List.cons_append, List.map_cons, List.map_append, List.mem_cons, List.mem_append,
        not_or] at ha
      have ha' : a ∉ (rest ++ e :: moved).map Entry.link := by
        simp only [List.map_append, List.map_cons, List.mem_append, List.mem_cons]
        tauto
      rw [hframe' a ha']
      exact hframe a ha.1 ha.2.2

/-- The table after `m` buckets of the old one: exactly the entries of these buckets have been
moved to it, and only their nodes have been written to. -/
structure Moved (cache : CacheObj) (ch : ℕ → List Entry) (m : ℕ) (cache' : CacheObj)
    (moved : List Entry) (ch' : ℕ → List Entry) : Prop where
  /-- The moved entries are chained. -/
  chained : cache'.Chained moved ch'
  /-- They are those of the first `m` buckets. -/
  mem_iff : ∀ e, e ∈ moved ↔ ∃ i < m, e ∈ ch i
  /-- Their keys are where they were. -/
  keys : cache'.keys = cache.keys
  /-- Nothing has been allocated. -/
  next : cache'.links.next = cache.links.next
  /-- No other node has been written to. -/
  frame : ∀ a, a ∉ moved.map Entry.link → cache'.links.cell a = cache.links.cell a

variable {cache' : CacheObj} {m : ℕ} {ch' : ℕ → List Entry}

/-- What is in the next bucket has not been moved before. -/
theorem Moved.distinct_append (hm : Moved cache ch m cache' moved ch') (hc : cache.Chained l ch)
    (hmlt : m < cache.tableSize) : ch m ++ moved ⊆ l ∧ Distinct (ch m ++ moved) := by
  have hsub : ch m ++ moved ⊆ l := by
    intro e he
    rcases List.mem_append.mp he with he | he
    · exact hc.mem_of_chain hmlt he
    · obtain ⟨i, hi, hei⟩ := (hm.mem_iff e).mp he
      exact hc.mem_of_chain (hi.trans hmlt) hei
  have hdisj : List.Disjoint (ch m) moved := by
    intro e he hemoved
    obtain ⟨i, hi, hei⟩ := (hm.mem_iff e).mp hemoved
    have him := ((hc.mem_chain i (hi.trans hmlt) e).mp hei).2
    have hmm := ((hc.mem_chain m hmlt e).mp he).2
    omega
  exact ⟨hsub, hc.distinct.of_subset
    (List.nodup_append'.mpr ⟨hc.nodup_chain hmlt, hm.chained.distinct.nodup, hdisj⟩) hsub⟩

/-- **One bucket** of the old table. -/
theorem Moved.succ (hm : Moved cache ch m cache' moved ch') (hc : cache.Chained l ch)
    (hmlt : m < cache.tableSize) :
    ∃ table links ch'', resizeChainCounted cache'.links.next cache' (cache.table m)
        = some ({ cache' with table := table, links := links }, (ch m).length) ∧
      Moved cache ch (m + 1) { cache' with table := table, links := links }
        ((ch m).reverse ++ moved) ch'' := by
  obtain ⟨hsub, hd⟩ := hm.distinct_append hc hmlt
  have hseg : linkLayout.Seg cache'.links (cache.table m) ((ch m).map Entry.chainNode) none := by
    refine (hc.seg m hmlt).congr fun n hn ↦ hm.frame _ fun h ↦ ?_
    have hnd := hd.link
    rw [List.map_append] at hnd
    exact (List.nodup_append'.mp hnd).2.2 (Entry.fst_mem_links hn) h
  have hlen := hseg.length_le
  rw [List.length_map] at hlen
  obtain ⟨table, links, ch'', hchain, hnext, hc'', hframe⟩ :=
    resizeChainCounted_spec hm.chained hseg hlen
      (fun e he ↦ hm.keys ▸ hc.key_cell e (hsub (List.mem_append_left _ he))) hd
  refine ⟨table, links, ch'', hchain, hc'', fun e ↦ ?_, hm.keys, hnext.trans hm.next,
    fun a ha ↦ ?_⟩
  · rw [List.mem_append, List.mem_reverse, hm.mem_iff]
    constructor
    · rintro (he | ⟨i, hi, he⟩)
      · exact ⟨m, Nat.lt_succ_self m, he⟩
      · exact ⟨i, Nat.lt_succ_of_lt hi, he⟩
    · rintro ⟨i, hi, he⟩
      rcases Nat.lt_succ_iff_lt_or_eq.mp hi with hi | rfl
      · exact Or.inr ⟨i, hi, he⟩
      · exact Or.inl he
  · simp only [List.map_append, List.map_reverse, List.mem_append, List.mem_reverse,
      not_or] at ha
    exact (hframe a (by simpa using ha)).trans (hm.frame a ha.2)

/-- **Resizing** keeps every entry, with its key, value and policy node, puts it in the bucket its
hash names in the new table, and relinks each node once. -/
theorem Chained.resizeTableCounted_spec (hc : cache.Chained l ch) (newSize : ℕ)
    (hsize : 0 < newSize) :
    ∃ table links ch', cache.resizeTableCounted newSize
        = some ({ cache with table := table, links := links, tableSize := newSize }, l.length) ∧
      links.next = cache.links.next ∧
      Chained { cache with table := table, links := links, tableSize := newSize } l ch' := by
  let cache₀ : CacheObj := { cache with table := fun _ ↦ none, tableSize := newSize }
  have hloop : ∀ m ≤ cache.tableSize, ∃ table links ch' moved,
      (List.range m).foldlM
          (fun (c, total) i ↦ do
            let (c, count) ← resizeChainCounted c.links.next c (cache.table i)
            some (c, total + count))
          (cache₀, 0)
        = some ({ cache₀ with table := table, links := links }, moved.length) ∧
        Moved cache ch m { cache₀ with table := table, links := links } moved ch' := by
    intro m hm
    induction m with
    | zero =>
      refine ⟨fun _ ↦ none, cache.links, fun _ ↦ [], [], rfl, ?_, by simp, rfl, rfl, fun _ _ ↦ rfl⟩
      exact ⟨fun _ _ ↦ rfl, by simp, by simp, Distinct.nil, hsize⟩
    | succ m ih =>
      obtain ⟨table, links, ch', moved, hfold, hmoved⟩ := ih (Nat.le_of_succ_le hm)
      obtain ⟨table', links', ch'', hchain, hmoved'⟩ := hmoved.succ hc hm
      refine ⟨table', links', ch'', _, ?_, hmoved'⟩
      rw [List.range_succ, List.foldlM_append, hfold]
      simp only [Option.bind_eq_bind, Option.bind_some, List.foldlM_cons, List.foldlM_nil]
      rw [hchain, List.length_append, List.length_reverse, Nat.add_comm]
      rfl
  obtain ⟨table, links, ch', moved, hfold, hmoved⟩ := hloop _ le_rfl
  have hperm : moved.Perm l := by
    refine (List.perm_ext_iff_of_nodup hmoved.chained.distinct.nodup hc.distinct.nodup).mpr
      fun e ↦ ?_
    rw [hmoved.mem_iff]
    constructor
    · rintro ⟨i, hi, he⟩
      exact hc.mem_of_chain hi he
    · exact fun he ↦ ⟨_, hc.bucketOf_lt e.key, hc.mem_own_chain he⟩
  exact ⟨table, links, ch', hperm.length_eq ▸ hfold, hmoved.next, hmoved.chained.perm hperm⟩

theorem Chained.resizeTable_spec (hc : cache.Chained l ch) (newSize : ℕ) (hsize : 0 < newSize) :
    ∃ table links ch', cache.resizeTable newSize
        = some { cache with table := table, links := links, tableSize := newSize } ∧
      links.next = cache.links.next ∧
      Chained { cache with table := table, links := links, tableSize := newSize } l ch' := by
  obtain ⟨table, links, ch', hresize, hnext, hc'⟩ := hc.resizeTableCounted_spec newSize hsize
  refine ⟨table, links, ch', ?_, hnext, hc'⟩
  rw [← map_fst_resizeTableCounted, hresize]
  rfl

end CacheObj

end NetCache
