import NetCache.Policy.Recency

/-!
# The policy as a list

The policy under any sequence of calls, also calls with nodes that were deleted before, or that
never existed.

## The abstract list

`Recents` is what the user of a policy may think of it as: a list of nodes, most recently used
first, to which creating pushes, from which deleting removes, and in which using moves to the front.
A call is refused when it names a node that is not live, or when the assertion of `create_info`
fails. Nodes are numbered as they are created, since these numbers are what the calls name.

## The refinement

`run_createPolicy_rel` says that a policy and such a list, started empty, accept the same calls with
the same answers and that the pointers spell out the list after each. The relation is stated with
`Option.Rel`: either both refuse the calls or neither does.

## What is spelled out

`SpellsOut` collects what a traversal sees: the walk along `low` from `top`, the walk along `high`
from `bottom` in reverse, the ends, and that every walk ends without meeting a freed node.

## Counting exactly

While the limit has room for one more value, the counter does not wrap, and the assertion of
`create_info` keeps the list within the limit. The items named for deletion are then the least
number of least recently used nodes whose going makes room (`idsToDeleteIfAdded_of_run`).
-/

namespace NetCache

/-- A call to the policy. -/
inductive PolicyCall (ι : Type)
  /-- `create_info` -/
  | create (id : ι) (valSize : UInt32)
  /-- `info_gotten` -/
  | gotten (info : Addr)
  /-- `delete_info` -/
  | delete (info : Addr)

namespace PolicyObj

variable {ι : Type}

/-- One call, with the node that `create_info` answers. -/
def exec (policy : PolicyObj ι) : PolicyCall ι → Option (PolicyObj ι × Option Addr)
  | .create id valSize => do
    let (info, policy) ← createInfo policy id valSize
    some (policy, some info)
  | .gotten info => do
    let policy ← infoGotten policy info
    some (policy, none)
  | .delete info => do
    let policy ← deleteInfo policy info
    some (policy, none)

/-- A sequence of calls, with what they answer. -/
def run (policy : PolicyObj ι) :
    List (PolicyCall ι) → Option (PolicyObj ι × List (Option Addr))
  | [] => some (policy, [])
  | call :: calls => do
    let (policy, answer) ← policy.exec call
    let (policy, answers) ← policy.run calls
    some (policy, answer :: answers)

end PolicyObj

/-! ## The abstract list -/

/-- A recency list that numbers its nodes in the order of their creation. -/
structure Recents (ι : Type) where
  /-- The limit. -/
  maxmem : UInt64
  /-- How many nodes have been created. -/
  created : ℕ
  /-- The live nodes, most recently used first. -/
  nodes : List (Node ι)

namespace Recents

variable {ι : Type}

/-- The list without nodes. -/
def empty (maxmem : UInt64) : Recents ι := ⟨maxmem, 0, []⟩

/-- One call: push to the front, move to the front, remove. -/
def exec (s : Recents ι) : PolicyCall ι → Option (Recents ι × Option Addr)
  | .create id valSize =>
    if PolicyObj.fitsBeside s.maxmem valSize s.nodes then
      some (⟨s.maxmem, s.created + 1, (s.created, (id, valSize)) :: s.nodes⟩, some s.created)
    else none
  | .gotten info =>
    if info ∈ Lru.keys s.nodes then some ({ s with nodes := Lru.touch info s.nodes }, none)
    else none
  | .delete info =>
    if info ∈ Lru.keys s.nodes then some ({ s with nodes := Lru.remove info s.nodes }, none)
    else none

/-- A sequence of calls. -/
def run (s : Recents ι) : List (PolicyCall ι) → Option (Recents ι × List (Option Addr))
  | [] => some (s, [])
  | call :: calls => do
    let (s, answer) ← s.exec call
    let (s, answers) ← s.run calls
    some (s, answer :: answers)

end Recents

namespace PolicyObj

variable {ι : Type} {policy policy' : PolicyObj ι} {s : Recents ι} {l : List (Node ι)}
  {infos infos' : Heap (PinfoObj ι)} {info : Addr}

/-! ## What the pointers spell out -/

/-- The pointers of the policy spell out the nodes `l`, and every traversal of them ends. -/
structure SpellsOut (policy : PolicyObj ι) (l : List (Node ι)) : Prop where
  /-- Following `low` from `top` visits the nodes and ends at `NULL`. -/
  down : pinfoLayout.down.Seg policy.infos policy.top l none
  /-- Following `high` from `bottom` visits them in reverse. -/
  up : pinfoLayout.up.Seg policy.infos policy.bottom l.reverse none
  /-- No node is visited twice. -/
  nodup : (l.map Prod.fst).Nodup
  /-- The nodes visited are the live ones. -/
  live : ∀ a, (∃ x, policy.infos.cell a = some x) ↔ a ∈ l.map Prod.fst
  /-- Nothing is above `top`. -/
  top_high : ∀ a ∈ policy.top, ∃ x, policy.infos.cell a = some x ∧ x.high = none
  /-- Nothing is below `bottom`. -/
  bottom_low : ∀ a ∈ policy.bottom, ∃ x, policy.infos.cell a = some x ∧ x.low = none
  /-- `top` is `NULL` only without nodes. -/
  top_eq_none : policy.top = none ↔ l = []
  /-- `bottom` is `NULL` only without nodes. -/
  bottom_eq_none : policy.bottom = none ↔ l = []
  /-- The walks that choose what to evict end and meet no freed node. -/
  choosing : ∀ valSize, (∃ r, numToDelete policy valSize = some r) ∧
    ∃ r, idsToDeleteIfAdded policy valSize = some r
  /-- The walk that frees the nodes ends, and leaves none. -/
  deleting : ∃ infos, deletePolicy policy = some infos ∧ ∀ a, infos.cell a = none

theorem Recency.ends (hr : policy.Recency l) :
    (∀ a ∈ policy.top, ∃ x, policy.infos.cell a = some x ∧ x.high = none) ∧
      ∀ a ∈ policy.bottom, ∃ x, policy.infos.cell a = some x ∧ x.low = none := by
  have hd := hr.dll
  constructor
  · intro a ha
    cases l with
    | nil =>
      rw [hd.1] at ha
      exact absurd ha (by simp)
    | cons n l =>
      obtain ⟨htop, x, hx, -, hhigh, -⟩ := hd
      rw [htop, Option.mem_some_iff] at ha
      exact ⟨x, ha ▸ hx, hhigh⟩
  · intro a ha
    cases l using List.reverseRecOn with
    | nil =>
      rw [hd.2] at ha
      exact absurd ha (by simp)
    | append_singleton l n =>
      obtain ⟨_, _, -, hlast⟩ := BiLayout.dll_append.mp hd
      obtain ⟨-, hbottom, x, hx, -, -, hlow⟩ := BiLayout.dll_singleton.mp hlast
      rw [hbottom, Option.mem_some_iff] at ha
      exact ⟨x, ha ▸ hx, hlow⟩

theorem Recency.choosing (hr : policy.Recency l) (valSize : UInt32) :
    (∃ r, numToDelete policy valSize = some r) ∧
      ∃ r, idsToDeleteIfAdded policy valSize = some r := by
  have hlen := hr.dll.seg_up.length_le
  rw [List.length_reverse] at hlen
  obtain ⟨outT, hcount⟩ :=
    numToDeleteLoop_spec valSize 0 hr.dll.seg_up (Nat.lt_succ_of_le hlen)
  rw [← hr.used] at hcount
  exact ⟨⟨_, hcount⟩, _, idsToDeleteIfAdded_spec hr valSize⟩

theorem Recency.spellsOut (hr : policy.Recency l) : policy.SpellsOut l where
  down := hr.dll.seg_down
  up := hr.dll.seg_up
  nodup := hr.nodup
  live a := by
    constructor
    · rintro ⟨x, hx⟩
      exact hr.live a x hx
    · intro ha
      obtain ⟨n, hn, rfl⟩ := List.mem_map.mp ha
      obtain ⟨x, hx, -⟩ := hr.dll.seg_down.cell hn
      exact ⟨x, hx⟩
  top_high := hr.ends.1
  bottom_low := hr.ends.2
  top_eq_none := by
    cases l with
    | nil => exact iff_of_true hr.dll.1 rfl
    | cons n l => exact iff_of_false (by simp [hr.dll.1]) (by simp)
  bottom_eq_none := hr.dll.last_eq_none_iff
  choosing := hr.choosing
  deleting := deletePolicy_spec hr

/-! ## Allocation

The two pointer operations allocate nothing, so nodes are numbered by `create_info` alone. A call
with a dead node fails at its first read, before anything is written. -/

theorem next_of_modifyIf {p : Option Addr} {f : PinfoObj ι → PinfoObj ι}
    (h : infos.modifyIf p f = some infos') : infos'.next = infos.next := by
  cases p with
  | none => exact congrArg Heap.next (Option.some.inj h).symm
  | some a =>
    obtain ⟨_, -, rfl⟩ := Option.map_eq_some_iff.mp h
    rfl

theorem next_moveInfoToHead (h : moveInfoToHead policy info = some policy') :
    policy'.infos.next = policy.infos.next := by
  simp only [moveInfoToHead, Option.bind_eq_bind, Option.bind_eq_some_iff] at h
  obtain ⟨infos₁, h₁, infos₂, h₂, h⟩ := h
  rw [← Option.some.inj h]
  have h₂' : infos₁.modifyIf (some info) _ = some infos₂ := h₂
  exact (next_of_modifyIf h₂').trans (next_of_modifyIf h₁)

theorem next_removeInfoFromList (h : removeInfoFromList policy info = some policy') :
    policy'.infos.next = policy.infos.next := by
  simp only [removeInfoFromList, Option.bind_eq_bind, Option.bind_eq_some_iff] at h
  obtain ⟨_, -, infos₁, h₁, _, -, infos₂, h₂, _, -, h⟩ := h
  rw [← Option.some.inj h]
  exact (next_of_modifyIf h₂).trans (next_of_modifyIf h₁)

theorem removeInfoFromList_of_dead (h : policy.infos.cell info = none) :
    removeInfoFromList policy info = none := by
  rw [removeInfoFromList, Heap.read, h]
  rfl

/-! ## One call

The numbers of the abstract list are the addresses of the heap, because neither is used twice.
With that the state of the policy determines that of the list, and the step lemma has a case for
each call. -/

/-- The policy is in the state `s` of the abstract list. -/
structure Realises (policy : PolicyObj ι) (s : Recents ι) : Prop where
  /-- The nodes. -/
  recency : policy.Recency s.nodes
  /-- The limit. -/
  maxmem : policy.maxmem = s.maxmem
  /-- The next node to be created. -/
  created : policy.infos.next = s.created

theorem realises_createPolicy (maxmem : UInt64) :
    (createPolicy maxmem : PolicyObj ι).Realises (Recents.empty maxmem) where
  recency := recency_createPolicy maxmem
  maxmem := rfl
  created := rfl

theorem Realises.dead (hr : policy.Realises s) (h : info ∉ Lru.keys s.nodes) :
    policy.infos.cell info = none := by
  by_contra hne
  obtain ⟨x, hx⟩ := Option.ne_none_iff_exists'.mp hne
  exact h (hr.recency.live info x hx)

/-- A live node cuts the list in two. -/
theorem Realises.split (hr : policy.Realises s) (h : info ∈ Lru.keys s.nodes) :
    ∃ l₁ d l₂, s.nodes = l₁ ++ (info, d) :: l₂ ∧ Lru.remove info s.nodes = l₁ ++ l₂ ∧
      Lru.touch info s.nodes = (info, d) :: (l₁ ++ l₂) := by
  obtain ⟨d, hd⟩ := Lru.mem_keys.mp h
  have hnd : (Lru.keys s.nodes).Nodup := hr.recency.nodup
  have hfind := (Lru.find_eq_some_iff hnd).mpr hd
  obtain ⟨l₁, l₂, hsplit⟩ := List.append_of_mem hd
  rw [Lru.touch_of_some hfind]
  rw [hsplit] at hnd ⊢
  exact ⟨l₁, d, l₂, rfl, Lru.remove_of_append hnd, by rw [Lru.remove_of_append hnd]⟩

theorem Realises.create (hr : policy.Realises s) (id : ι) (valSize : UInt32) :
    Option.Rel (fun r r' ↦ r.2 = r'.2 ∧ Realises r.1 r'.1) (policy.exec (.create id valSize))
      (s.exec (.create id valSize)) := by
  by_cases hfits : fitsBeside s.maxmem valSize s.nodes = true
  · have hle : policy.usedMem + valSize.toUInt64 ≤ policy.maxmem := by
      rw [hr.recency.used, hr.maxmem]
      exact of_decide_eq_true hfits
    obtain ⟨policy', hcreate, hmax, hrec⟩ := createInfo_spec hr.recency id valSize hle
    have hnext : policy'.infos.next = policy.infos.next + 1 := by
      rw [createInfo, if_neg (UInt64.not_lt.mpr hle)] at hcreate
      simp only [Option.bind_eq_bind, Option.bind_eq_some_iff] at hcreate
      obtain ⟨policy₁, hmove, h⟩ := hcreate
      rw [← (Prod.mk.inj (Option.some.inj h)).2]
      exact next_moveInfoToHead hmove
    rw [exec, hcreate, Recents.exec, if_pos hfits]
    refine Option.Rel.some ⟨congrArg some hr.created, ?_, hmax.trans hr.maxmem, ?_⟩
    · rw [hr.created] at hrec
      exact hrec
    · rw [hnext, hr.created]
  · have hlt : policy.maxmem < policy.usedMem + valSize.toUInt64 := by
      rw [hr.recency.used, hr.maxmem]
      exact UInt64.not_le.mp fun hle ↦ hfits (decide_eq_true hle)
    rw [exec, createInfo, if_pos hlt, Recents.exec, if_neg hfits]
    exact Option.Rel.none

theorem Realises.gotten (hr : policy.Realises s) (info : Addr) :
    Option.Rel (fun r r' ↦ r.2 = r'.2 ∧ Realises r.1 r'.1) (policy.exec (.gotten info))
      (s.exec (.gotten info)) := by
  by_cases hlive : info ∈ Lru.keys s.nodes
  · obtain ⟨l₁, d, l₂, hsplit, -, htouch⟩ := hr.split hlive
    obtain ⟨policy', hgot, hmax, hrec⟩ := infoGotten_spec (hsplit ▸ hr.recency)
    have hnext : policy'.infos.next = policy.infos.next := by
      simp only [infoGotten, Option.bind_eq_bind, Option.bind_eq_some_iff] at hgot
      obtain ⟨policy₁, hrem, hmove⟩ := hgot
      exact (next_moveInfoToHead hmove).trans (next_removeInfoFromList hrem)
    replace hgot : policy.infoGotten info = some policy' := hgot
    rw [exec, hgot, Recents.exec, if_pos hlive]
    exact Option.Rel.some ⟨rfl, htouch ▸ hrec, hmax.trans hr.maxmem, hnext.trans hr.created⟩
  · rw [exec, infoGotten, removeInfoFromList_of_dead (hr.dead hlive), Recents.exec,
      if_neg hlive]
    exact Option.Rel.none

theorem Realises.delete (hr : policy.Realises s) (info : Addr) :
    Option.Rel (fun r r' ↦ r.2 = r'.2 ∧ Realises r.1 r'.1) (policy.exec (.delete info))
      (s.exec (.delete info)) := by
  by_cases hlive : info ∈ Lru.keys s.nodes
  · obtain ⟨l₁, d, l₂, hsplit, hremove, -⟩ := hr.split hlive
    obtain ⟨policy', hdel, hmax, hrec⟩ := deleteInfo_spec (hsplit ▸ hr.recency)
    have hnext : policy'.infos.next = policy.infos.next := by
      simp only [deleteInfo, Option.bind_eq_bind, Option.bind_eq_some_iff] at hdel
      obtain ⟨policy₁, hrem, _, -, infos, hfree, h⟩ := hdel
      obtain ⟨_, -, rfl⟩ := Option.map_eq_some_iff.mp hfree
      rw [← Option.some.inj h]
      show policy₁.infos.next = _
      exact next_removeInfoFromList hrem
    replace hdel : policy.deleteInfo info = some policy' := hdel
    rw [exec, hdel, Recents.exec, if_pos hlive]
    exact Option.Rel.some ⟨rfl, hremove ▸ hrec, hmax.trans hr.maxmem, hnext.trans hr.created⟩
  · rw [exec, deleteInfo, removeInfoFromList_of_dead (hr.dead hlive), Recents.exec,
      if_neg hlive]
    exact Option.Rel.none

/-- One call of the policy is one call of the list. -/
theorem Realises.exec (hr : policy.Realises s) (call : PolicyCall ι) :
    Option.Rel (fun r r' ↦ r.2 = r'.2 ∧ Realises r.1 r'.1) (policy.exec call) (s.exec call) := by
  cases call with
  | create id valSize => exact hr.create id valSize
  | gotten info => exact hr.gotten info
  | delete info => exact hr.delete info

/-! ## Runs -/

theorem rel_bind {α α' β β' : Type} {R : α → α' → Prop} {S : β → β' → Prop} {x : Option α}
    {x' : Option α'} {f : α → Option β} {f' : α' → Option β'} (h : Option.Rel R x x')
    (hf : ∀ a a', R a a' → Option.Rel S (f a) (f' a')) :
    Option.Rel S (x.bind f) (x'.bind f') := by
  cases h with
  | none => exact Option.Rel.none
  | some hr => exact hf _ _ hr

theorem rel_mono {α α' : Type} {R S : α → α' → Prop} {x : Option α} {x' : Option α'}
    (h : Option.Rel R x x') (hRS : ∀ a a', R a a' → S a a') : Option.Rel S x x' := by
  cases h with
  | none => exact Option.Rel.none
  | some hr => exact Option.Rel.some (hRS _ _ hr)

theorem exists_of_rel_some {α α' : Type} {R : α → α' → Prop} {a : α} {x' : Option α'}
    (h : Option.Rel R (some a) x') : ∃ a', x' = some a' ∧ R a a' := by
  cases h with
  | some hr => exact ⟨_, rfl, hr⟩

theorem Realises.run (hr : policy.Realises s) (calls : List (PolicyCall ι)) :
    Option.Rel (fun r r' ↦ r.2 = r'.2 ∧ Realises r.1 r'.1) (policy.run calls) (s.run calls) := by
  induction calls generalizing policy s with
  | nil => exact Option.Rel.some ⟨rfl, hr⟩
  | cons call calls ih =>
    refine rel_bind (hr.exec call) ?_
    rintro ⟨policy₁, answer⟩ ⟨s₁, answer'⟩ ⟨hanswer, hr₁⟩
    refine rel_bind (ih hr₁) ?_
    rintro ⟨policy', answers⟩ ⟨s', answers'⟩ ⟨hanswers, hr'⟩
    exact Option.Rel.some ⟨congrArg₂ List.cons hanswer hanswers, hr'⟩

/-- **The recency list implements the abstract list**: a new policy accepts the calls that an
empty list accepts, with the same answers, and after any of them its pointers spell out the list.
-/
theorem run_createPolicy_rel (maxmem : UInt64) (calls : List (PolicyCall ι)) :
    Option.Rel (fun r r' ↦ r.2 = r'.2 ∧ r.1.SpellsOut r'.1.nodes)
      ((createPolicy maxmem).run calls) ((Recents.empty maxmem).run calls) :=
  rel_mono ((realises_createPolicy maxmem).run calls) fun _ _ h ↦ ⟨h.1, h.2.recency.spellsOut⟩

/-! ## Counting exactly

A limit with room for one more value makes the counter of the policy exact. -/

/-- The sizes of a recency list, added exactly. -/
abbrev nodeSum (l : List (Node ι)) : ℕ := Lru.total (fun d : ι × UInt32 ↦ d.2.toNat) l

section Exact

variable {maxmem : UInt64} {valSize : UInt32}

theorem toNat_nodeTotal (hl : nodeSum l ≤ maxmem.toNat) : (nodeTotal l).toNat = nodeSum l :=
  Lru.toNat_wordTotal_of_lt (hl.trans_lt maxmem.toNat_lt)

variable (hmax : maxmem.toNat ≤ 2 ^ 64 - 2 ^ 32)
include hmax

theorem toNat_nodeTotal_add (hl : nodeSum l ≤ maxmem.toNat) :
    (nodeTotal l + valSize.toUInt64).toNat = nodeSum l + valSize.toNat := by
  have hsize : valSize.toNat < 2 ^ 32 := valSize.toNat_lt
  rw [UInt64.toNat_add, toNat_nodeTotal hl, UInt32.toNat_toUInt64, Nat.mod_eq_of_lt (by omega)]

theorem fitsBeside_iff (hl : nodeSum l ≤ maxmem.toNat) :
    fitsBeside maxmem valSize l = true ↔ nodeSum l + valSize.toNat ≤ maxmem.toNat := by
  rw [fitsBeside, decide_eq_true_iff, UInt64.le_iff_toNat_le, toNat_nodeTotal_add hmax hl]

end Exact

end PolicyObj

/-- The nodes of the list fit its limit. -/
def Recents.Within {ι : Type} (s : Recents ι) : Prop :=
  PolicyObj.nodeSum s.nodes ≤ s.maxmem.toNat

namespace Recents

variable {ι : Type} {s s' : Recents ι} {call : PolicyCall ι} {answer : Option Addr}

theorem exec_within (hmax : s.maxmem.toNat ≤ 2 ^ 64 - 2 ^ 32) (hs : s.Within)
    (hexec : s.exec call = some (s', answer)) : s'.maxmem = s.maxmem ∧ s'.Within := by
  cases call with
  | create id valSize =>
    obtain ⟨hfits, h⟩ := Option.ite_none_right_eq_some.mp hexec
    obtain rfl := (Prod.mk.inj (Option.some.inj h)).1
    refine ⟨rfl, ?_⟩
    have hle := (PolicyObj.fitsBeside_iff hmax hs).mp hfits
    show valSize.toNat + PolicyObj.nodeSum s.nodes ≤ s.maxmem.toNat
    omega
  | gotten info =>
    obtain ⟨-, h⟩ := Option.ite_none_right_eq_some.mp hexec
    obtain rfl := (Prod.mk.inj (Option.some.inj h)).1
    exact ⟨rfl, Lru.total_touch_le.trans hs⟩
  | delete info =>
    obtain ⟨-, h⟩ := Option.ite_none_right_eq_some.mp hexec
    obtain rfl := (Prod.mk.inj (Option.some.inj h)).1
    exact ⟨rfl, (Lru.total_sublist Lru.remove_sublist).trans hs⟩

theorem run_within {calls : List (PolicyCall ι)} {answers : List (Option Addr)}
    (hmax : s.maxmem.toNat ≤ 2 ^ 64 - 2 ^ 32) (hs : s.Within)
    (hrun : s.run calls = some (s', answers)) : s'.maxmem = s.maxmem ∧ s'.Within := by
  induction calls generalizing s answers with
  | nil =>
    obtain rfl := (Prod.mk.inj (Option.some.inj hrun)).1
    exact ⟨rfl, hs⟩
  | cons call calls ih =>
    simp only [run, Option.bind_eq_bind, Option.bind_eq_some_iff] at hrun
    obtain ⟨⟨s₁, answer⟩, hexec, ⟨s₂, answers'⟩, hrun', h⟩ := hrun
    obtain rfl := (Prod.mk.inj (Option.some.inj h)).1
    obtain ⟨hmax₁, hs₁⟩ := exec_within hmax hs hexec
    obtain ⟨hmax₂, hs₂⟩ := ih (hmax₁ ▸ hmax) hs₁ hrun'
    exact ⟨hmax₂.trans hmax₁, hs₂⟩

end Recents

namespace PolicyObj

variable {ι : Type} {policy : PolicyObj ι} {l : List (Node ι)} {maxmem : UInt64}
  {valSize : UInt32}

/-- The nodes that go are the fewest least recent ones that make room. -/
theorem isLeast_evicted (hmax : maxmem.toNat ≤ 2 ^ 64 - 2 ^ 32) (hl : nodeSum l ≤ maxmem.toNat)
    (hsize : valSize.toNat ≤ maxmem.toNat) :
    IsLeast {k | nodeSum l - nodeSum (l.reverse.take k) + valSize.toNat ≤ maxmem.toNat}
      (l.length - (Lru.evict (fitsBeside maxmem valSize) l).length) := by
  have hnil : fitsBeside maxmem valSize ([] : List (Node ι)) = true :=
    (fitsBeside_iff hmax (Nat.zero_le _)).mpr (by simpa using hsize)
  -- what is left when the last `k` nodes go
  have hleft : ∀ k, nodeSum l - nodeSum (l.reverse.take k) = nodeSum (l.take (l.length - k)) := by
    intro k
    have hsplit : nodeSum (l.take (l.length - k)) + nodeSum (l.drop (l.length - k))
        = nodeSum l := by
      rw [← Lru.total_append, List.take_append_drop]
    have hrev : nodeSum (l.drop (l.length - k)).reverse = nodeSum (l.drop (l.length - k)) :=
      Lru.total_reverse
    rw [List.take_reverse, hrev]
    omega
  have hset : {k | nodeSum l - nodeSum (l.reverse.take k) + valSize.toNat ≤ maxmem.toNat}
      = {k | fitsBeside maxmem valSize (l.take (l.length - k)) = true} := by
    ext k
    have hle : nodeSum (l.take (l.length - k)) ≤ maxmem.toNat :=
      (Lru.total_sublist (List.take_sublist _ _)).trans hl
    rw [Set.mem_ofPred_eq, Set.mem_ofPred_eq, hleft, fitsBeside_iff hmax hle]
  rw [hset]
  exact Lru.isLeast_evicted hnil l

/-- **What `ids_to_delete_if_added` answers** in every state that calls lead to: for a value within
the limit the least recently used nodes of these calls, as few as make room, least recent first; for
a value above it, nothing. The walk that collects them stays within the list. -/
theorem idsToDeleteIfAdded_of_run {calls : List (PolicyCall ι)} {answers : List (Option Addr)}
    (hmax : maxmem.toNat ≤ 2 ^ 64 - 2 ^ 32)
    (hrun : (createPolicy maxmem).run calls = some (policy, answers)) (valSize : UInt32) :
    ∃ s, (Recents.empty maxmem).run calls = some (s, answers) ∧ policy.SpellsOut s.nodes ∧
      policy.maxmem = maxmem ∧ policy.usedMem.toNat = nodeSum s.nodes ∧
      nodeSum s.nodes ≤ maxmem.toNat ∧
      (valSize.toNat ≤ maxmem.toNat → ∃ k ≤ s.nodes.length,
        IsLeast {k | policy.usedMem.toNat - nodeSum (s.nodes.reverse.take k) + valSize.toNat
          ≤ maxmem.toNat} k ∧
        makeItemArray policy k policy.bottom
          = some ((s.nodes.reverse.take k).map fun n ↦ n.2.1) ∧
        idsToDeleteIfAdded policy valSize
          = some ⟨(s.nodes.reverse.take k).map fun n ↦ n.2.1, true⟩) ∧
      (maxmem.toNat < valSize.toNat → idsToDeleteIfAdded policy valSize = some ⟨[], false⟩) := by
  have hnew : (createPolicy maxmem : PolicyObj ι).Realises (Recents.empty maxmem) :=
    realises_createPolicy maxmem
  have hrel := hnew.run calls
  rw [hrun] at hrel
  obtain ⟨⟨s, _⟩, hs, rfl, hr⟩ := exists_of_rel_some hrel
  replace hr : policy.Realises s := hr
  obtain ⟨hlimit, hwithin⟩ := Recents.run_within hmax (Nat.zero_le _) hs
  replace hlimit : s.maxmem = maxmem := hlimit
  have hlimit' : policy.maxmem = maxmem := hr.maxmem.trans hlimit
  have hl : nodeSum s.nodes ≤ maxmem.toNat := hlimit ▸ hwithin
  have hused : policy.usedMem.toNat = nodeSum s.nodes := by
    rw [hr.recency.used, toNat_nodeTotal hl]
  have hids := idsToDeleteIfAdded_spec hr.recency valSize
  have hadm : valSize.toUInt64 ≤ maxmem ↔ valSize.toNat ≤ maxmem.toNat := by
    rw [UInt64.le_iff_toNat_le, UInt32.toNat_toUInt64]
  rw [hlimit'] at hids
  refine ⟨s, hs, hr.recency.spellsOut, hlimit', hused, hl, fun hsize ↦ ?_, fun hsize ↦ ?_⟩
  · rw [if_pos (hadm.mpr hsize)] at hids
    have hlen := (Lru.evict_isPrefix (fitsBeside maxmem valSize) s.nodes).length_le
    have hdrop : (s.nodes.drop (Lru.evict (fitsBeside maxmem valSize) s.nodes).length).reverse
        = s.nodes.reverse.take
          (s.nodes.length - (Lru.evict (fitsBeside maxmem valSize) s.nodes).length) := by
      rw [List.take_reverse, Nat.sub_sub_self hlen]
    refine ⟨_, Nat.sub_le _ _, hused ▸ isLeast_evicted hmax hl hsize, ?_, ?_⟩
    · exact makeItemArray_spec hr.recency.dll.seg_up
        ((Nat.sub_le _ _).trans_eq List.length_reverse.symm)
    · rw [hids, hdrop]
  · rw [if_neg fun h ↦ Nat.not_le.mpr hsize (hadm.mp h)] at hids
    exact hids

/-- Two items of four bytes under a limit of ten, the older one used again: the other one goes. -/
theorem idsToDeleteIfAdded_of_run_two :
    ∃ (policy : PolicyObj ℕ) (answers : List (Option Addr)),
      (createPolicy 10).run [.create 1 4, .create 2 4, .gotten 0] = some (policy, answers) ∧
        idsToDeleteIfAdded policy 6 = some ⟨[2], true⟩ := by
  obtain ⟨⟨policy, answers⟩, hrun⟩ : ∃ r,
      (createPolicy 10).run [.create 1 4, .create 2 4, .gotten 0] = some r :=
    Option.isSome_iff_exists.mp (by decide)
  obtain ⟨s, hs, -, -, hused, -, hadmitted, -⟩ := idsToDeleteIfAdded_of_run (by decide) hrun 6
  obtain ⟨k, hk, ⟨hroom, hleast⟩, -, hids⟩ := hadmitted (by decide)
  -- the used one is in front
  obtain rfl : s = ⟨10, 2, [(0, (1, 4)), (1, (2, 4))]⟩ := (Prod.mk.inj (Option.some.inj hs)).1.symm
  rw [Set.mem_ofPred_eq, hused] at hroom
  have hone : k ≤ 1 := hleast (by rw [Set.mem_ofPred_eq, hused]; decide)
  obtain rfl | rfl : k = 0 ∨ k = 1 := by omega
  · exact absurd hroom (by decide)
  · exact ⟨policy, answers, hrun, hids⟩

end PolicyObj

end NetCache
