import NetCache.Policy.Calls

/-!
# The counters of the policy, checked

The functions of the policy that compute with counters, once more, over an arithmetic that may
refuse.

## Why a second version

That no counter wraps is a statement about the values in the middle of a function, which the result
does not show: a sum may leave `uint64_t` and come back by a difference. So the functions are
written with the arithmetic as a parameter. With `Counting.wrapping` they are the functions of
`Policy.Source`, by the lemmas of the first section; with `Counting.checked` a sum that leaves
`uint64_t` and a difference below zero stop the program. Where the two agree, no counter has wrapped
anywhere on the way.

## When they agree

They agree when the sizes of the nodes and one more value stay below `2 ^ 64` together, which a
limit of at most `2 ^ 64 - 2 ^ 32` ensures; it is the same condition that makes the count of the
stored bytes exact. A sum has at most one value more than the nodes of the list, and a difference
takes away the size of a node that is part of the sum.

The loop that counts what has to go subtracts one node after the other from a total which includes
all of them. Its lemma carries the nodes that are still to come.
-/

namespace NetCache

/-- How counters are computed; `none` stops the program. -/
structure Counting where
  /-- `+` and `+=` -/
  add : UInt64 → UInt64 → Option UInt64
  /-- `-=` -/
  sub : UInt64 → UInt64 → Option UInt64

namespace Counting

/-- The arithmetic of `uint64_t`. -/
def wrapping : Counting where
  add a b := some (a + b)
  sub a b := some (a - b)

/-- The same arithmetic, stopped by a sum from `2 ^ 64` on and by a difference below zero. -/
def checked : Counting where
  add a b := if a.toNat + b.toNat < 2 ^ 64 then some (a + b) else none
  sub a b := if b.toNat ≤ a.toNat then some (a - b) else none

variable {a : UInt64} {v : UInt32}

theorem checked_add (h : a.toNat + v.toNat < 2 ^ 64) :
    checked.add a v.toUInt64 = some (a + v.toUInt64) :=
  if_pos (by rwa [UInt32.toNat_toUInt64])

theorem checked_sub (h : v.toNat ≤ a.toNat) :
    checked.sub a v.toUInt64 = some (a - v.toUInt64) :=
  if_pos (by rwa [UInt32.toNat_toUInt64])

end Counting

namespace PolicyObj

variable {ι : Type} (C : Counting)

/-- `create_info` -/
def createInfoBy (policy : PolicyObj ι) (id : ι) (valSize : UInt32) :
    Option (Addr × PolicyObj ι) := do
  let sum ← C.add policy.usedMem valSize.toUInt64
  if policy.maxmem < sum then none
  else
    let (newinf, infos) := policy.infos.alloc ⟨none, none, id, valSize⟩
    let policy ← moveInfoToHead { policy with infos := infos } newinf
    let usedMem ← C.add policy.usedMem valSize.toUInt64
    some (newinf, { policy with usedMem := usedMem })

/-- `delete_info` -/
def deleteInfoBy (policy : PolicyObj ι) (info : Addr) : Option (PolicyObj ι) := do
  let policy ← removeInfoFromList policy info
  let i ← policy.infos.read info
  let usedMem ← C.sub policy.usedMem i.valSize.toUInt64
  let infos ← policy.infos.free info
  some { policy with usedMem := usedMem, infos := infos }

/-- The loop of `num_to_delete`. -/
def numToDeleteLoopBy (policy : PolicyObj ι) :
    ℕ → ℕ → Option Addr → UInt64 → Option (ℕ × Option Addr)
  | 0, _, _, _ => none
  | _ + 1, numDelIds, none, _ => some (numDelIds, none)
  | fuel + 1, numDelIds, some curT, totMem =>
    if policy.maxmem < totMem then do
      let o ← policy.infos.read curT
      let totMem ← C.sub totMem o.valSize.toUInt64
      numToDeleteLoopBy policy fuel (numDelIds + 1) o.high totMem
    else some (numDelIds, some curT)

/-- `num_to_delete` -/
def numToDeleteBy (policy : PolicyObj ι) (valSize : UInt32) : Option (ℕ × Option Addr) := do
  let totMem ← C.add policy.usedMem valSize.toUInt64
  numToDeleteLoopBy C policy (policy.infos.next + 1) 0 policy.bottom totMem

/-- `ids_to_delete_if_added` -/
def idsToDeleteIfAddedBy (policy : PolicyObj ι) (valSize : UInt32) : Option (IdArr ι) := do
  let (numDelIds, _) ← numToDeleteBy C policy valSize
  if policy.maxmem < valSize.toUInt64 then some ⟨[], false⟩
  else if numDelIds = 0 then some ⟨[], true⟩
  else
    let idArr ← makeItemArray policy numDelIds policy.bottom
    some ⟨idArr, true⟩

variable {policy policy' : PolicyObj ι} {l l₁ l₂ : List (Node ι)} {n : Node ι} {info : Addr}
  {valSize : UInt32}

/-! ## With the arithmetic of the source -/

theorem createInfoBy_wrapping (policy : PolicyObj ι) (id : ι) (valSize : UInt32) :
    createInfoBy .wrapping policy id valSize = createInfo policy id valSize := rfl

theorem deleteInfoBy_wrapping (policy : PolicyObj ι) (info : Addr) :
    deleteInfoBy .wrapping policy info = deleteInfo policy info := rfl

theorem numToDeleteLoopBy_wrapping (fuel numDelIds : ℕ) (curT : Option Addr) (totMem : UInt64) :
    numToDeleteLoopBy .wrapping policy fuel numDelIds curT totMem
      = numToDeleteLoop policy fuel numDelIds curT totMem := by
  fun_induction numToDeleteLoop policy fuel numDelIds curT totMem with
  | case1 => rfl
  | case2 => rfl
  | case3 fuel numDelIds curT totMem hlt ih =>
    rw [numToDeleteLoopBy, if_pos hlt]
    cases hread : policy.infos.read curT with
    | none => rfl
    | some o => exact ih o
  | case4 fuel numDelIds curT totMem hlt => rw [numToDeleteLoopBy, if_neg hlt]

theorem idsToDeleteIfAddedBy_wrapping (policy : PolicyObj ι) (valSize : UInt32) :
    idsToDeleteIfAddedBy .wrapping policy valSize = idsToDeleteIfAdded policy valSize := by
  have hnum : numToDeleteBy .wrapping policy valSize = numToDelete policy valSize :=
    numToDeleteLoopBy_wrapping ..
  rw [idsToDeleteIfAddedBy, hnum]
  rfl

/-! ## With checks -/

theorem usedMem_moveInfoToHead (h : moveInfoToHead policy info = some policy') :
    policy'.usedMem = policy.usedMem := by
  simp only [moveInfoToHead, Option.bind_eq_bind, Option.bind_eq_some_iff] at h
  obtain ⟨_, -, _, -, h⟩ := h
  rw [← Option.some.inj h]

theorem createInfoBy_checked (id : ι) (h : policy.usedMem.toNat + valSize.toNat < 2 ^ 64) :
    createInfoBy .checked policy id valSize = createInfo policy id valSize := by
  rw [createInfoBy, createInfo, Counting.checked_add h]
  simp only [Option.bind_eq_bind, Option.bind_some]
  split
  · rfl
  · refine Option.bind_congr fun policy' hmove ↦ ?_
    have hused := usedMem_moveInfoToHead hmove
    replace hused : policy'.usedMem = policy.usedMem := hused
    rw [hused, Counting.checked_add h]
    rfl

/-- The counter does not go below zero while it counts the node. -/
theorem Recency.deleteInfoBy (hr : policy.Recency (l₁ ++ n :: l₂))
    (h : n.2.2.toNat ≤ policy.usedMem.toNat) :
    deleteInfoBy .checked policy n.1 = deleteInfo policy n.1 := by
  obtain ⟨policy', hrem, -, hused, -, -, ⟨x, hx, hdata⟩, -⟩ := removeInfoFromList_spec hr.dll
  have hsize : x.valSize = n.2.2 := congrArg Prod.snd hdata
  rw [PolicyObj.deleteInfoBy, deleteInfo]
  simp only [hrem, Heap.read_eq hx, Option.bind_eq_bind, Option.bind_some]
  rw [hsize, Counting.checked_sub (by rwa [hused])]
  rfl

/-- What the walk of `num_to_delete` subtracts is part of what is left, also for a value above
the limit. -/
theorem numToDeleteLoopBy_checked {curT : Option Addr} (numDelIds fuel : ℕ)
    (hs : pinfoLayout.up.Seg policy.infos curT l.reverse none)
    (hlt : nodeSum l + valSize.toNat < 2 ^ 64) :
    numToDeleteLoopBy .checked policy fuel numDelIds curT (nodeTotal l + valSize.toUInt64)
      = numToDeleteLoop policy fuel numDelIds curT (nodeTotal l + valSize.toUInt64) := by
  induction l using List.reverseRecOn generalizing curT numDelIds fuel with
  | nil =>
    obtain rfl : curT = none := hs
    cases fuel <;> rfl
  | append_singleton l m ih =>
    cases fuel with
    | zero => rfl
    | succ fuel =>
      rw [List.reverse_append, List.reverse_singleton, List.singleton_append] at hs
      obtain ⟨rfl, x, hx, hdata, htail⟩ := hs
      have hsize : x.valSize = m.2.2 := congrArg Prod.snd hdata
      have hsum : nodeSum (l ++ [m]) = nodeSum l + m.2.2.toNat := by
        rw [nodeSum, Lru.total_append, Lru.total_cons, Lru.total_nil, Nat.add_zero]
      have htot : (nodeTotal (l ++ [m]) + valSize.toUInt64).toNat
          = nodeSum (l ++ [m]) + valSize.toNat := by
        rw [UInt64.toNat_add, Lru.toNat_wordTotal_of_lt (Nat.lt_of_add_right_lt hlt),
          UInt32.toNat_toUInt64, Nat.mod_eq_of_lt hlt]
      have hsub : nodeTotal (l ++ [m]) + valSize.toUInt64 - x.valSize.toUInt64
          = nodeTotal l + valSize.toUInt64 := by
        rw [hsize, nodeTotal, Lru.wordTotal_append, Lru.wordTotal_cons, Lru.wordTotal_nil]
        grind
      rw [numToDeleteLoopBy, numToDeleteLoop]
      refine if_congr Iff.rfl ?_ rfl
      simp only [Heap.read_eq hx, Option.bind_eq_bind, Option.bind_some]
      rw [Counting.checked_sub (by rw [htot, hsum, hsize]; omega), Option.bind_some, hsub]
      exact ih (numDelIds + 1) fuel htail (by omega)

theorem Recency.idsToDeleteIfAddedBy (hr : policy.Recency l)
    (hlt : nodeSum l + valSize.toNat < 2 ^ 64) :
    idsToDeleteIfAddedBy .checked policy valSize = idsToDeleteIfAdded policy valSize := by
  have hused : policy.usedMem.toNat + valSize.toNat < 2 ^ 64 := by
    rw [hr.used, Lru.toNat_wordTotal_of_lt (Nat.lt_of_add_right_lt hlt)]
    exact hlt
  have hnum : numToDeleteBy .checked policy valSize = numToDelete policy valSize := by
    rw [numToDeleteBy, Counting.checked_add hused, numToDelete, hr.used]
    exact numToDeleteLoopBy_checked 0 _ hr.dll.seg_up hlt
  rw [PolicyObj.idsToDeleteIfAddedBy, hnum]
  rfl

end PolicyObj

end NetCache
