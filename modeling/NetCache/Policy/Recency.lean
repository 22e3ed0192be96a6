import NetCache.Lru.Word
import NetCache.Policy.Source

/-!
# The recency list of the policy

What the pointers of a policy stand for: a list of nodes, most recently used first, each with what
the user knows the item by and with its size.

## The invariant

`Recency` ties a policy to such a list. The nodes are doubly linked between `top` and `bottom`; the
counter is the sum of their sizes, as the policy adds them; and no other node is allocated. The
third field is the one that speaks of leaks: the operations could keep the first two and lose a node
on the way. Nothing is said about the limit, since the policy leaves it to its user to delete what
it names before creating what it asked for.

## The operations

Each operation of `Policy.Source` has one specification: it succeeds, with a policy that has the
invariant for the list it should have. Creating pushes to the front, deleting removes, using moves
to the front. They are all made of two pointer operations, unlinking a node and putting one in
front, whose specifications concern the links alone and say which cells they leave as they are.

## Choosing

What a new value displaces is named, not removed, by `ids_to_delete_if_added`. The items it names
are those the eviction of `Lru.evict` drops, in the order in which it drops them
(`idsToDeleteIfAdded_spec`), so a user who deletes them in turn evicts as the abstract store does.
-/

namespace NetCache

variable {ι : Type}

/-- Where a `PinfoObj` keeps its links. -/
def pinfoLayout : BiLayout (PinfoObj ι) (ι × UInt32) where
  low := ⟨PinfoObj.low, fun p o ↦ { o with low := p }, fun _ _ ↦ rfl⟩
  high := ⟨PinfoObj.high, fun p o ↦ { o with high := p }, fun _ _ ↦ rfl⟩
  data o := (o.ident, o.valSize)
  low_set_high _ _ := rfl
  high_set_low _ _ := rfl
  data_set_low _ _ := rfl
  data_set_high _ _ := rfl

/-- A node of the recency list: its address, the item, and the size. -/
abbrev Node (ι : Type) := Addr × (ι × UInt32)

/-- The sizes of a recency list, added as the policy adds them. -/
abbrev nodeTotal (l : List (Node ι)) : UInt64 := Lru.wordTotal Prod.snd l

namespace PolicyObj

/-- The policy keeps the nodes `l`, most recently used first. -/
structure Recency (policy : PolicyObj ι) (l : List (Node ι)) : Prop where
  /-- The nodes are doubly linked between `top` and `bottom`. -/
  dll : pinfoLayout.Dll policy.infos none policy.top l policy.bottom none
  /-- The counter is the sum of the sizes. -/
  used : policy.usedMem = nodeTotal l
  /-- No other node is allocated. -/
  live : ∀ a x, policy.infos.cell a = some x → a ∈ l.map Prod.fst

variable {policy : PolicyObj ι} {l l₁ l₂ : List (Node ι)} {n : Node ι}

theorem Recency.nodup (hr : policy.Recency l) : (l.map Prod.fst).Nodup := hr.dll.nodup

theorem recency_createPolicyIn {infos : Heap (PinfoObj ι)} (hfree : ∀ a, infos.cell a = none)
    (maxmem : UInt64) : (createPolicyIn infos maxmem).Recency [] where
  dll := ⟨rfl, rfl⟩
  used := rfl
  live := fun a x hx ↦ absurd ((hfree a).symm.trans hx) (Option.some_ne_none x).symm

theorem recency_createPolicy (maxmem : UInt64) :
    (createPolicy maxmem : PolicyObj ι).Recency [] :=
  recency_createPolicyIn (fun _ ↦ rfl) maxmem

/-! ## The two pointer operations -/

theorem removeInfoFromList_spec
    (hd : pinfoLayout.Dll policy.infos none policy.top (l₁ ++ n :: l₂) policy.bottom none) :
    ∃ policy', removeInfoFromList policy n.1 = some policy' ∧
      policy'.maxmem = policy.maxmem ∧ policy'.usedMem = policy.usedMem ∧
      policy'.infos.next = policy.infos.next ∧
      pinfoLayout.Dll policy'.infos none policy'.top (l₁ ++ l₂) policy'.bottom none ∧
      (∃ x, policy'.infos.cell n.1 = some x ∧ pinfoLayout.data x = n.2) ∧
      ∀ a, a ∉ (l₁ ++ l₂).map Prod.fst → policy'.infos.cell a = policy.infos.cell a := by
  have hnd := hd.nodup
  simp only [List.map_append, List.map_cons, List.nodup_append', List.nodup_cons] at hnd
  obtain ⟨hnd₁, ⟨hn₂, hnd₂⟩, hdisj⟩ := hnd
  have hn₁ : n.1 ∉ l₁.map Prod.fst := fun h ↦ hdisj h List.mem_cons_self
  have hdisj₁₂ : List.Disjoint (l₁.map Prod.fst) (l₂.map Prod.fst) := fun a h₁ h₂ ↦
    hdisj h₁ (List.mem_cons_of_mem _ h₂)
  obtain ⟨u, v, hd₁, rfl, x, hx, hdata, hhigh, hd₂⟩ := BiLayout.dll_append.mp hd
  obtain rfl : x.high = u := hhigh
  -- `info->high->low = info->low`
  obtain ⟨infos₁, hmod₁, hnext₁, hd₁', hframe₁⟩ := hd₁.redirect_low hnd₁ x.low
  have hx₁ : infos₁.cell n.1 = some x := by rw [hframe₁ _ hn₁, hx]
  have hd₂₁ : pinfoLayout.Dll infos₁ (some n.1) x.low l₂ policy.bottom none :=
    hd₂.frame hframe₁ hdisj₁₂.symm
  -- `info->low->high = info->high`
  obtain ⟨infos₂, hmod₂, hnext₂, hd₂', hframe₂⟩ := hd₂₁.redirect_high x.high
  have hx₂ : infos₂.cell n.1 = some x := by rw [hframe₂ _ hn₂, hx₁]
  have hd₁₂ := hd₁'.frame hframe₂ hdisj₁₂
  -- the pointers of the policy move exactly when the node was at an end
  have htop := hd.first_eq_some_iff
  have hbottom := hd.last_eq_some_iff
  refine ⟨⟨policy.maxmem, policy.usedMem, if l₁ = [] then x.low else policy.top,
    if l₂ = [] then x.high else policy.bottom, infos₂⟩, ?_, rfl, rfl, hnext₂.trans hnext₁, ?_,
    ⟨x, hx₂, hdata⟩, ?_⟩
  · have hmod₁' : policy.infos.modifyIf x.high (fun o ↦ { o with low := x.low }) = some infos₁ :=
      hmod₁
    have hmod₂' : infos₁.modifyIf x.low (fun o ↦ { o with high := x.high }) = some infos₂ :=
      hmod₂
    simp only [removeInfoFromList, Heap.read_eq hx, Option.bind_eq_bind, Option.bind_some, hmod₁',
      Heap.read_eq hx₁, hmod₂', Heap.read_eq hx₂, htop, hbottom]
  · exact BiLayout.dll_append.mpr ⟨x.high, x.low, hd₁₂, hd₂'⟩
  · intro a ha
    rw [List.map_append, List.mem_append, not_or] at ha
    rw [hframe₂ a ha.2, hframe₁ a ha.1]

theorem moveInfoToHead_spec
    (hd : pinfoLayout.Dll policy.infos none policy.top l policy.bottom none)
    {x : PinfoObj ι} (hx : policy.infos.cell n.1 = some x) (hdata : pinfoLayout.data x = n.2)
    (hn : n.1 ∉ l.map Prod.fst) :
    ∃ policy', moveInfoToHead policy n.1 = some policy' ∧
      policy'.maxmem = policy.maxmem ∧ policy'.usedMem = policy.usedMem ∧
      policy'.infos.next = policy.infos.next ∧
      pinfoLayout.Dll policy'.infos none policy'.top (n :: l) policy'.bottom none ∧
      ∀ a, a ∉ (n :: l).map Prod.fst → policy'.infos.cell a = policy.infos.cell a := by
  obtain ⟨infos, hmod, hnext, hd', hframe⟩ := hd.redirect_high (some n.1)
  have hx' : infos.cell n.1 = some x := by rw [hframe _ hn, hx]
  let g : PinfoObj ι → PinfoObj ι := fun o ↦ { o with low := policy.top, high := none }
  have hbottom : (if policy.bottom = none then some n.1 else policy.bottom)
      = if l = [] then some n.1 else policy.bottom :=
    if_congr hd.last_eq_none_iff rfl rfl
  refine ⟨⟨policy.maxmem, policy.usedMem, some n.1, if l = [] then some n.1 else policy.bottom,
    infos.update n.1 g⟩, ?_, rfl, rfl, hnext, ?_, ?_⟩
  · have hmod' : policy.infos.modifyIf policy.top (fun o ↦ { o with high := some n.1 })
        = some infos := hmod
    simp only [moveInfoToHead, hmod', Option.bind_eq_bind, Option.bind_some,
      Heap.modify_eq hx', hbottom, g]
  · refine ⟨rfl, g x, Heap.update_self hx', hdata, rfl, ?_⟩
    exact hd'.congr fun m hm ↦ Heap.update_ne fun hmn ↦ hn (hmn ▸ List.mem_map_of_mem hm)
  · intro a ha
    rw [List.map_cons, List.mem_cons, not_or] at ha
    rw [← hframe a ha.2]
    exact Heap.update_ne ha.1

/-! ## The operations -/

/-- `create_info` pushes a new node to the front. -/
theorem createInfo_spec (hr : policy.Recency l) (id : ι) (valSize : UInt32)
    (hfits : policy.usedMem + valSize.toUInt64 ≤ policy.maxmem) :
    ∃ policy', createInfo policy id valSize = some (policy.infos.next, policy') ∧
      policy'.maxmem = policy.maxmem ∧
      policy'.Recency ((policy.infos.next, (id, valSize)) :: l) := by
  let a := policy.infos.next
  let x : PinfoObj ι := ⟨none, none, id, valSize⟩
  have ha : a ∉ l.map Prod.fst := by
    intro hmem
    obtain ⟨m, hm, hma⟩ := List.mem_map.mp hmem
    obtain ⟨y, hy, -⟩ := hr.dll.seg_down.cell hm
    exact (Heap.lt_next hy).ne hma
  let pushed : PolicyObj ι := { policy with infos := policy.infos.push x }
  have hpushed : pinfoLayout.Dll pushed.infos none pushed.top l pushed.bottom none := hr.dll.push
  obtain ⟨policy', hmove, hmaxmem, hused, -, hd, hframe⟩ :=
    moveInfoToHead_spec (n := (a, (id, valSize))) hpushed Heap.push_self rfl ha
  refine ⟨{ policy' with usedMem := policy'.usedMem + valSize.toUInt64 }, ?_, hmaxmem, hd, ?_, ?_⟩
  · have hmove' : moveInfoToHead { policy with infos := policy.infos.push x } a = some policy' :=
      hmove
    rw [createInfo, if_neg (UInt64.not_lt.mpr hfits)]
    simp only [Heap.alloc, Option.bind_eq_bind, a, x] at hmove' ⊢
    simp only [hmove', Option.bind_some]
  · show policy'.usedMem + valSize.toUInt64 = valSize.toUInt64 + nodeTotal l
    rw [hused, ← hr.used, UInt64.add_comm]
  · intro b y hy
    by_contra hb
    replace hy : policy'.infos.cell b = some y := hy
    -- outside the list nothing has been written since the allocation
    rw [hframe b hb] at hy
    rw [List.map_cons, List.mem_cons, not_or] at hb
    have hcell : (policy.infos.push x).cell b = policy.infos.cell b := if_neg hb.1
    exact hb.2 (hr.live b y (hcell ▸ hy))

/-- `delete_info` removes a node. -/
theorem deleteInfo_spec (hr : policy.Recency (l₁ ++ n :: l₂)) :
    ∃ policy', deleteInfo policy n.1 = some policy' ∧ policy'.maxmem = policy.maxmem ∧
      policy'.Recency (l₁ ++ l₂) := by
  obtain ⟨policy', hrem, hmaxmem, hused, -, hd, ⟨x, hx, hdata⟩, hframe⟩ :=
    removeInfoFromList_spec hr.dll
  have hn : n.1 ∉ (l₁ ++ l₂).map Prod.fst := (nodup_map_middle hr.nodup).1
  have hsize : x.valSize = n.2.2 := congrArg Prod.snd hdata
  refine ⟨{ policy' with
      usedMem := policy'.usedMem - x.valSize.toUInt64, infos := policy'.infos.erase n.1 },
    ?_, hmaxmem, hd.erase hn, ?_, ?_⟩
  · simp only [deleteInfo, hrem, Option.bind_eq_bind, Option.bind_some, Heap.read_eq hx,
      Heap.free_eq hx]
  · show policy'.usedMem - _ = _
    rw [hused, hr.used, hsize, nodeTotal, Lru.wordTotal_middle_sub]
  · intro b y hy
    replace hy : (policy'.infos.erase n.1).cell b = some y := hy
    have hbn : b ≠ n.1 := fun h ↦ by simp [Heap.erase, h] at hy
    by_contra hb
    rw [Heap.erase_ne hbn, hframe b hb] at hy
    have hmem := hr.live b y hy
    simp only [List.map_append, List.map_cons, List.mem_append, List.mem_cons] at hmem hb
    tauto

/-- `info_gotten` moves a node to the front. -/
theorem infoGotten_spec (hr : policy.Recency (l₁ ++ n :: l₂)) :
    ∃ policy', infoGotten policy n.1 = some policy' ∧ policy'.maxmem = policy.maxmem ∧
      policy'.Recency (n :: (l₁ ++ l₂)) := by
  obtain ⟨policy₁, hrem, hmaxmem₁, hused₁, -, hd₁, ⟨x, hx, hdata⟩, hframe₁⟩ :=
    removeInfoFromList_spec hr.dll
  have hn : n.1 ∉ (l₁ ++ l₂).map Prod.fst := (nodup_map_middle hr.nodup).1
  obtain ⟨policy₂, hmove, hmaxmem₂, hused₂, -, hd₂, hframe₂⟩ :=
    moveInfoToHead_spec hd₁ hx hdata hn
  refine ⟨policy₂, ?_, hmaxmem₂.trans hmaxmem₁, hd₂, ?_, ?_⟩
  · simp only [infoGotten, hrem, Option.bind_eq_bind, Option.bind_some, hmove]
  · rw [hused₂, hused₁, hr.used, nodeTotal, nodeTotal, Lru.wordTotal_middle, Lru.wordTotal_cons]
  · intro b y hy
    by_contra hb
    rw [hframe₂ b hb, hframe₁ b (fun h ↦ hb (List.mem_cons_of_mem _ h))] at hy
    have hmem := hr.live b y hy
    simp only [List.map_append, List.map_cons, List.mem_append, List.mem_cons] at hmem hb
    tauto

/-! ## Choosing what to evict

The count and the collection are two walks from `bottom`. The count is the number of nodes that
`Lru.evict` drops, and it is at most the length of the list, which is why the second walk needs no
check. -/

/-- Whether a new value fits beside the nodes, as the policy decides it. -/
def fitsBeside (maxmem : UInt64) (valSize : UInt32) (l : List (Node ι)) : Bool :=
  nodeTotal l + valSize.toUInt64 ≤ maxmem

theorem numToDeleteLoop_spec (valSize : UInt32) {curT : Option Addr} (numDelIds : ℕ) {fuel : ℕ}
    (hs : pinfoLayout.up.Seg policy.infos curT l.reverse none) (hfuel : l.length < fuel) :
    ∃ outT, numToDeleteLoop policy fuel numDelIds curT (nodeTotal l + valSize.toUInt64) =
      some (numDelIds + (l.length - (Lru.evict (fitsBeside policy.maxmem valSize) l).length),
        outT) := by
  -- the walk starts at the least recent node, the last one of the list
  induction l using List.reverseRecOn generalizing curT numDelIds fuel with
  | nil =>
    obtain ⟨fuel, rfl⟩ := Nat.exists_eq_succ_of_ne_zero (Nat.ne_zero_of_lt hfuel)
    obtain rfl : curT = none := hs
    exact ⟨none, rfl⟩
  | append_singleton l m ih =>
    obtain ⟨fuel, rfl⟩ := Nat.exists_eq_succ_of_ne_zero (Nat.ne_zero_of_lt hfuel)
    rw [List.length_append, List.length_singleton] at hfuel
    rw [List.reverse_append, List.reverse_singleton, List.singleton_append] at hs
    obtain ⟨rfl, x, hx, hdata, htail⟩ := hs
    cases hfits : fitsBeside policy.maxmem valSize (l ++ [m]) with
    | true =>
      refine ⟨some m.1, ?_⟩
      rw [numToDeleteLoop, if_neg (UInt64.not_lt.mpr (by simpa [fitsBeside] using hfits)),
        Lru.evict_of_fits hfits, Nat.sub_self, Nat.add_zero]
    | false =>
      have hsize : x.valSize = m.2.2 := congrArg Prod.snd hdata
      have hsub : nodeTotal (l ++ [m]) + valSize.toUInt64 - x.valSize.toUInt64
          = nodeTotal l + valSize.toUInt64 := by
        rw [hsize, nodeTotal, Lru.wordTotal_append, Lru.wordTotal_cons, Lru.wordTotal_nil]
        grind
      obtain ⟨outT, hout⟩ := ih (numDelIds + 1) htail (Nat.lt_of_succ_lt_succ hfuel)
      have hlen := (Lru.evict_isPrefix (fitsBeside policy.maxmem valSize) l).length_le
      have hhigh : x.high = pinfoLayout.up.next.get x := rfl
      refine ⟨outT, ?_⟩
      rw [numToDeleteLoop, if_pos (UInt64.not_le.mp (by simpa [fitsBeside] using hfits))]
      simp only [Heap.read_eq hx, Option.bind_eq_bind, Option.bind_some, hsub]
      rw [hhigh, hout, Lru.evict_concat hfits,
        List.length_append, List.length_singleton]
      congr 2
      omega

theorem makeItemArray_spec {r : List (Node ι)} {bottom : Option Addr} {numItems : ℕ}
    (hs : pinfoLayout.up.Seg policy.infos bottom r none) (hnum : numItems ≤ r.length) :
    makeItemArray policy numItems bottom = some ((r.take numItems).map fun n ↦ n.2.1) := by
  induction numItems generalizing r bottom with
  | zero => rw [makeItemArray, List.take_zero, List.map_nil]
  | succ numItems ih =>
    cases r with
    | nil => simp at hnum
    | cons m r =>
      obtain ⟨rfl, x, hx, hdata, htail⟩ := hs
      have hident : x.ident = m.2.1 := congrArg Prod.fst hdata
      have hhigh : x.high = pinfoLayout.up.next.get x := rfl
      have harr := ih htail (Nat.le_of_succ_le_succ hnum)
      rw [makeItemArray]
      simp only [Heap.read_eq hx, Option.bind_eq_bind, Option.bind_some,
        hhigh, harr, hident, List.take_succ_cons, List.map_cons]

/-- `ids_to_delete_if_added` refuses a value above the limit, and otherwise names the items that
the eviction drops, least recently used first. -/
theorem idsToDeleteIfAdded_spec (hr : policy.Recency l) (valSize : UInt32) :
    idsToDeleteIfAdded policy valSize = some (if valSize.toUInt64 ≤ policy.maxmem then
      ⟨(l.drop (Lru.evict (fitsBeside policy.maxmem valSize) l).length).reverse.map
        fun n ↦ n.2.1, true⟩ else ⟨[], false⟩) := by
  have hup := hr.dll.seg_up
  have hlen := hup.length_le
  rw [List.length_reverse] at hlen
  obtain ⟨outT, hcount⟩ := numToDeleteLoop_spec valSize 0 hup
    (Nat.lt_succ_of_le hlen)
  have hnum : numToDelete policy valSize = _ := (hr.used ▸ hcount :)
  -- the count is the number of nodes behind the ones the eviction keeps
  obtain ⟨gone, hgone⟩ := Lru.evict_isPrefix (fitsBeside policy.maxmem valSize) l
  generalize Lru.evict (fitsBeside policy.maxmem valSize) l = kept at hnum hgone
  subst hgone
  rw [List.length_append, Nat.add_sub_cancel_left, Nat.zero_add] at hnum
  rw [List.drop_left]
  simp only [idsToDeleteIfAdded, hnum, Option.bind_eq_bind, Option.bind_some]
  by_cases hle : valSize.toUInt64 ≤ policy.maxmem
  · rw [if_neg (UInt64.not_lt.mpr hle), if_pos hle]
    by_cases hzero : gone.length = 0
    · rw [if_pos hzero, List.eq_nil_of_length_eq_zero hzero]
      rfl
    · have hnum : gone.length ≤ (kept ++ gone).reverse.length := by simp
      have harr := makeItemArray_spec hup hnum
      rw [if_neg hzero, harr, List.reverse_append, ← List.length_reverse, List.take_left]
      rfl
  · rw [if_pos (UInt64.not_le.mp hle), if_neg hle]

/-! ## Deleting the policy

The traversal reads the next pointer of a node before it frees the node, and starts at the least
recent end. What it leaves is a heap without cells, as no other node was allocated. -/

theorem deletePolicyLoop_spec {infos : Heap (PinfoObj ι)} {r : List (Node ι)} {obj : Option Addr}
    {fuel : ℕ} (hs : pinfoLayout.up.Seg infos obj r none) (hfuel : r.length ≤ fuel)
    (hlive : ∀ a x, infos.cell a = some x → a ∈ r.map Prod.fst) :
    ∃ infos', deletePolicyLoop fuel infos obj = some infos' ∧ ∀ a, infos'.cell a = none := by
  induction r generalizing infos obj fuel with
  | nil =>
    obtain rfl : obj = none := hs
    refine ⟨infos, by cases fuel <;> rfl, fun a ↦ ?_⟩
    by_contra hne
    obtain ⟨x, hx⟩ := Option.ne_none_iff_exists'.mp hne
    exact absurd (hlive a x hx) List.not_mem_nil
  | cons n r ih =>
    have hn := (List.nodup_cons.mp hs.nodup).1
    obtain ⟨rfl, x, hx, -, htail⟩ := hs
    obtain ⟨fuel, rfl⟩ := Nat.exists_eq_succ_of_ne_zero (Nat.ne_zero_of_lt hfuel)
    obtain ⟨infos', hloop, hempty⟩ := ih (htail.erase hn) (Nat.le_of_succ_le_succ hfuel)
      fun a y hy ↦ by
        have han : a ≠ n.1 := fun h ↦ by simp [Heap.erase, h] at hy
        rw [Heap.erase_ne han] at hy
        exact (List.mem_cons.mp (hlive a y hy)).resolve_left han
    refine ⟨infos', ?_, hempty⟩
    rw [deletePolicyLoop]
    simp only [Heap.read_eq hx, Heap.free_eq hx, Option.bind_eq_bind, Option.bind_some]
    exact hloop

/-- `delete_policy` ends, and frees every node. -/
theorem deletePolicy_spec (hr : policy.Recency l) :
    ∃ infos, deletePolicy policy = some infos ∧ ∀ a, infos.cell a = none := by
  refine deletePolicyLoop_spec hr.dll.seg_up hr.dll.seg_up.length_le ?_
  intro a x hx
  rw [List.map_reverse, List.mem_reverse]
  exact hr.live a x hx

end PolicyObj

end NetCache
