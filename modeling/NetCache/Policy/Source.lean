import NetCache.Memory.DoublyLinked

/-!
# The replacement policy

`impl/lru_replacement.c`, over the heap of its nodes.

## What may fail

A function of the source that dereferences a pointer, or that asserts, answers in `Option`: `none`
is a null or dangling dereference, or a failed assertion. Each use of `info->low` or `info->high` in
the source is a read of its own here: that the writes between two uses go to other nodes is not
taken for granted. Loops get a fuel that suffices for all nodes ever allocated; a walk that outruns
it has met a node twice, and is a failure as well.

## Arithmetic

Byte counters are `uint64_t` and sizes `uint32_t`, with the arithmetic of these types. Sums and
differences wrap, and nothing in the source prevents it; whether they do is a property of the runs.

## What is abstracted

What identifies an item to the user of the policy is a `void *` there and a type parameter here. The
policy stores it and hands it back, and never looks at it. A node that is allocated has a fresh
address, and the allocation itself does not fail. `create_policy` starts in the heap that policies
before it have left, so that what they did not free stays visible.
-/

namespace NetCache

/-- `struct pinfo_obj`, a node of the recency list. -/
structure PinfoObj (ι : Type) where
  /-- The next less recently used node. -/
  low : Option Addr
  /-- The next more recently used node. -/
  high : Option Addr
  /-- What the user of the policy knows the item by. -/
  ident : ι
  /-- The size of the item's value. -/
  valSize : UInt32

/-- `struct policy_obj`, with the heap its nodes live in. -/
structure PolicyObj (ι : Type) where
  /-- The limit. -/
  maxmem : UInt64
  /-- The sum of the sizes of the nodes. -/
  usedMem : UInt64
  /-- The most recently used node. -/
  top : Option Addr
  /-- The least recently used node. -/
  bottom : Option Addr
  /-- The allocated nodes. -/
  infos : Heap (PinfoObj ι)

/-- `struct id_arr`; the array carries its own length. -/
structure IdArr (ι : Type) where
  /-- The items to delete, in the order in which they are to go. -/
  data : List ι
  /-- Whether the new item is to be stored. -/
  shouldAdd : Bool

namespace PolicyObj

variable {ι : Type}

/-- `create_policy`, in a heap that earlier policies may have used. -/
def createPolicyIn (infos : Heap (PinfoObj ι)) (maxmem : UInt64) : PolicyObj ι where
  maxmem := maxmem
  usedMem := 0
  top := none
  bottom := none
  infos := infos

/-- `create_policy`, for the first time. -/
def createPolicy (maxmem : UInt64) : PolicyObj ι := createPolicyIn Heap.empty maxmem

/-- The traversal of `delete_policy`: free the nodes from `obj` on, along `high`. A walk that
outruns the number of allocations has met a freed node before. -/
def deletePolicyLoop : ℕ → Heap (PinfoObj ι) → Option Addr → Option (Heap (PinfoObj ι))
  | _, infos, none => some infos
  | 0, _, some _ => none
  | fuel + 1, infos, some obj => do
    let o ← infos.read obj
    let infos ← infos.free obj
    deletePolicyLoop fuel infos o.high

/-- `delete_policy`; what it answers is the heap that is left. -/
def deletePolicy (policy : PolicyObj ι) : Option (Heap (PinfoObj ι)) :=
  deletePolicyLoop policy.infos.next policy.infos policy.bottom

/-- `move_info_to_head` -/
def moveInfoToHead (policy : PolicyObj ι) (info : Addr) : Option (PolicyObj ι) := do
  let oldHead := policy.top
  let infos ← policy.infos.modifyIf oldHead fun o ↦ { o with high := some info }
  let infos ← infos.modify info fun o ↦ { o with low := oldHead, high := none }
  some { policy with
    top := some info
    bottom := if policy.bottom = none then some info else policy.bottom
    infos := infos }

/-- `remove_info_from_list`. Each use of `info->low` and `info->high` reads the node again. -/
def removeInfoFromList (policy : PolicyObj ι) (info : Addr) : Option (PolicyObj ι) := do
  let i ← policy.infos.read info
  let infos ← policy.infos.modifyIf i.high fun o ↦ { o with low := i.low }
  let i ← infos.read info
  let infos ← infos.modifyIf i.low fun o ↦ { o with high := i.high }
  let i ← infos.read info
  some { policy with
    top := if policy.top = some info then i.low else policy.top
    bottom := if policy.bottom = some info then i.high else policy.bottom
    infos := infos }

/-- `create_info`. The assertion is compiled in: nothing in the build defines `NDEBUG`. -/
def createInfo (policy : PolicyObj ι) (id : ι) (valSize : UInt32) :
    Option (Addr × PolicyObj ι) := do
  if policy.maxmem < policy.usedMem + valSize.toUInt64 then none
  else
    let (newinf, infos) := policy.infos.alloc ⟨none, none, id, valSize⟩
    let policy ← moveInfoToHead { policy with infos := infos } newinf
    some (newinf, { policy with usedMem := policy.usedMem + valSize.toUInt64 })

/-- `delete_info` -/
def deleteInfo (policy : PolicyObj ι) (info : Addr) : Option (PolicyObj ι) := do
  let policy ← removeInfoFromList policy info
  let i ← policy.infos.read info
  let infos ← policy.infos.free info
  some { policy with usedMem := policy.usedMem - i.valSize.toUInt64, infos := infos }

/-- The loop of `num_to_delete`, with the count, `cur_t` and `tot_mem`. -/
def numToDeleteLoop (policy : PolicyObj ι) :
    ℕ → ℕ → Option Addr → UInt64 → Option (ℕ × Option Addr)
  | 0, _, _, _ => none
  | _ + 1, numDelIds, none, _ => some (numDelIds, none)
  | fuel + 1, numDelIds, some curT, totMem =>
    if policy.maxmem < totMem then do
      let o ← policy.infos.read curT
      numToDeleteLoop policy fuel (numDelIds + 1) o.high (totMem - o.valSize.toUInt64)
    else some (numDelIds, some curT)

/-- `num_to_delete`, with the node the walk ends at. -/
def numToDelete (policy : PolicyObj ι) (valSize : UInt32) : Option (ℕ × Option Addr) :=
  numToDeleteLoop policy (policy.infos.next + 1) 0 policy.bottom
    (policy.usedMem + valSize.toUInt64)

/-- `make_item_array`. The walk does not check for `NULL`. -/
def makeItemArray (policy : PolicyObj ι) : ℕ → Option Addr → Option (List ι)
  | 0, _ => some []
  | _ + 1, none => none
  | n + 1, some i => do
    let o ← policy.infos.read i
    let arr ← makeItemArray policy n o.high
    some (o.ident :: arr)

/-- `ids_to_delete_if_added` -/
def idsToDeleteIfAdded (policy : PolicyObj ι) (valSize : UInt32) : Option (IdArr ι) := do
  let (numDelIds, _) ← numToDelete policy valSize
  if policy.maxmem < valSize.toUInt64 then some ⟨[], false⟩
  else if numDelIds = 0 then some ⟨[], true⟩
  else
    let idArr ← makeItemArray policy numDelIds policy.bottom
    some ⟨idArr, true⟩

/-- `info_gotten` -/
def infoGotten (policy : PolicyObj ι) (info : Addr) : Option (PolicyObj ι) := do
  let policy ← removeInfoFromList policy info
  moveInfoToHead policy info

end PolicyObj

end NetCache
