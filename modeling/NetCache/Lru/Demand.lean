import Mathlib.Data.List.Dedup
import Mathlib.Algebra.BigOperators.Group.Finset.Basic
import NetCache.Lru.Word

/-!
# Filling a store on demand

A store in front of a function: a key is looked up, and what the function gives is stored when it is
not there. This is how a cache is mostly used, and it makes the contents of the store a function of
the keys alone.

## What the store holds

Under a limit that counts sizes exactly, the store holds the most recent keys that fit together,
whatever was fetched before them (`fetchAll_entries`). `recent` lists the keys that were fetched,
most recent first and without repetition, and the store is the longest prefix of that list which
fits. The history of evictions leaves no trace: what an early eviction took away would not fit now
either, or was fetched again. Values beyond the limit are never stored, and do not count.

## Which keys are found

So a key is found if and only if the values of the distinct keys fetched since, its own included,
fit the limit (`mem_keys_fetchAll_iff`). The sum is the `reuse` distance of the key, in bytes. A
larger limit finds all that a smaller one finds if the smaller one admits the values
(`mem_keys_fetchAll_mono`); otherwise it may store a large value and lose small ones to it.

## Machine counting

With a limit that leaves room for one more value, a store that counts in 64 bits is filled in the
same way (`fetchAll_word_eq`).
-/

namespace NetCache

namespace Lru

variable {κ ν : Type*} [DecidableEq κ]

section Fetch

variable (C : Capacity κ ν) (f : κ → ν)

/-- Look a key up, and store what the function gives when it is not there. The answer is the value,
and whether the store had it. -/
def fetch (l : List (κ × ν)) (k : κ) : List (κ × ν) × ν × Bool :=
  match step C l (.get k) with
  | (l', .hit v) => (l', v, true)
  | (l', _) => ((step C l' (.set k (f k))).1, f k, false)

/-- A sequence of keys, with the answers in order. -/
def fetchAll (l : List (κ × ν)) : List κ → List (κ × ν) × List (ν × Bool)
  | [] => (l, [])
  | k :: ks =>
    let r := fetchAll (fetch C f l k).1 ks
    (r.1, (fetch C f l k).2 :: r.2)

variable {C f} {l : List (κ × ν)} {k : κ} {v : ν}

theorem fetch_of_find (h : find k l = some v) : fetch C f l k = (touch k l, v, true) := by
  rw [fetch, step_get, h]
  rfl

theorem fetch_of_none (h : find k l = none) : fetch C f l k = (put C k (f k) l, f k, false) := by
  rw [fetch, step_get, h, touch_of_none h]
  rfl

theorem fetchAll_concat (ks : List κ) (k : κ) :
    fetchAll C f l (ks ++ [k]) = ((fetch C f (fetchAll C f l ks).1 k).1,
      (fetchAll C f l ks).2 ++ [(fetch C f (fetchAll C f l ks).1 k).2]) := by
  induction ks generalizing l with
  | nil => rfl
  | cons k' ks ih => simp only [List.cons_append, fetchAll, ih]

end Fetch

/-! ## Recency

The list of keys in the order of their last use is `List.dedup` reversed, which keeps the last
occurrence of each key. One more fetch moves its key to the front. -/

theorem dedup_concat (ks : List κ) (k : κ) :
    (ks ++ [k]).dedup = (ks.dedup.filter fun a ↦ a ≠ k) ++ [k] := by
  induction ks with
  | nil => rfl
  | cons a ks ih =>
    rw [List.cons_append, List.dedup_cons, List.dedup_cons]
    by_cases ha : a ∈ ks
    · rw [if_pos (List.mem_append_left _ ha), if_pos ha, ih]
    · rw [if_neg ha]
      by_cases hak : a = k
      · rw [if_pos (by simp [hak]), ih, List.filter_cons_of_neg (by simp [hak])]
      · rw [if_neg (by simp [ha, hak]), ih, List.filter_cons_of_pos (by simp [hak]),
          List.cons_append]

variable (size : ν → ℕ) (maxmem : ℕ) (f : κ → ν)

/-- The keys fetched whose values the limit admits, most recent first, with these values. -/
def recent (ks : List κ) : List (κ × ν) :=
  ((ks.filter fun k ↦ size (f k) ≤ maxmem).dedup.reverse).map fun k ↦ (k, f k)

variable {size maxmem f} {ks : List κ} {k : κ}

theorem keys_recent :
    keys (recent size maxmem f ks)
      = (ks.filter fun k ↦ size (f k) ≤ maxmem).dedup.reverse := by
  rw [keys, recent, List.map_map]
  exact List.map_id _

theorem nodup_keys_recent (ks : List κ) : (keys (recent size maxmem f ks)).Nodup := by
  rw [keys_recent, List.nodup_reverse]
  exact List.nodup_dedup _

theorem mem_keys_recent :
    k ∈ keys (recent size maxmem f ks) ↔ k ∈ ks ∧ size (f k) ≤ maxmem := by
  rw [keys_recent, List.mem_reverse, List.mem_dedup, List.mem_filter, decide_eq_true_eq]

theorem snd_of_mem_recent {e : κ × ν} (he : e ∈ recent size maxmem f ks) : e.2 = f e.1 := by
  obtain ⟨k, -, rfl⟩ := List.mem_map.mp he
  rfl

theorem recent_concat (hk : size (f k) ≤ maxmem) :
    recent size maxmem f (ks ++ [k]) = (k, f k) :: remove k (recent size maxmem f ks) := by
  rw [recent, recent, List.filter_append, List.filter_cons_of_pos (by simpa using hk),
    List.filter_nil, dedup_concat, List.reverse_append, List.reverse_singleton,
    List.singleton_append, List.map_cons, ← List.filter_reverse, remove, List.filter_map]
  rfl

theorem recent_concat_of_lt (hk : maxmem < size (f k)) :
    recent size maxmem f (ks ++ [k]) = recent size maxmem f ks := by
  rw [recent, recent, List.filter_append, List.filter_cons_of_neg (by simpa using hk),
    List.filter_nil, List.append_nil]

/-! ## What the store holds

The step of the induction is that evicting before a fetch and evicting after it come to the same.
A key that was evicted and is fetched again comes to the front, as one that was not. -/

/-- What fits the limit. -/
def fitting (size : ν → ℕ) (maxmem : ℕ) (p : List (κ × ν)) : Bool := total size p ≤ maxmem

omit [DecidableEq κ] in
theorem fitting_nil : fitting size maxmem ([] : List (κ × ν)) = true :=
  decide_eq_true (Nat.zero_le maxmem)

theorem total_le_add_remove {l : List (κ × ν)} (hnd : (keys l).Nodup)
    (hval : ∀ e ∈ l, e.2 = f e.1) (k : κ) :
    total size l ≤ size (f k) + total size (remove k l) := by
  cases hfind : find k l with
  | none =>
    rw [remove_of_notMem (find_eq_none_iff.mp hfind)]
    exact Nat.le_add_left _ _
  | some v =>
    have hmem := mem_of_find hfind
    obtain rfl : v = f k := hval _ hmem
    rw [← total_perm (perm_cons_remove hnd hmem), total_cons]

/-- Beside the entry of a key, what does not fit without it need not be looked at. -/
theorem evict_remove_recent (ks : List κ) (k : κ) :
    evict (fun p ↦ fitting size maxmem ((k, f k) :: p)) (remove k (recent size maxmem f ks))
      = evict (fun p ↦ fitting size maxmem ((k, f k) :: p))
          (remove k (evict (fitting size maxmem) (recent size maxmem f ks))) := by
  have hnd : (keys (recent size maxmem f ks)).Nodup := nodup_keys_recent ks
  have hval : ∀ e ∈ recent size maxmem f ks, e.2 = f e.1 := fun e ↦ snd_of_mem_recent
  obtain ⟨rest, hrest⟩ := evict_isPrefix (fitting size maxmem) (recent size maxmem f ks)
  have hsplit := hrest
  generalize recent size maxmem f ks = S at *
  have hnd' : (keys (evict (fitting size maxmem) S)).Nodup := nodup_keys_evict hnd
  have hover : ∀ r t, rest = r :: t →
      maxmem < total size (evict (fitting size maxmem) S) + size r.2 := by
    rintro r t rfl
    have hfits := not_fits_evict_concat hsplit.symm
    rw [fitting, decide_eq_false_iff_not, total_append, total_cons, total_nil] at hfits
    omega
  generalize evict (fitting size maxmem) S = l at *
  subst hrest
  have hk : total size l ≤ size (f k) + total size (remove k l) :=
    total_le_add_remove hnd' (fun e he ↦ hval e (List.mem_append_left _ he)) k
  rw [remove_append, evict_append]
  intro p hp hne
  refine decide_eq_false ?_
  simp only [total_cons, total_append]
  cases rest with
  | nil => exact absurd (List.prefix_nil.mp hp) hne
  | cons r rest =>
    have hr := hover r rest rfl
    by_cases hrk : r.1 = k
    · -- the first that went is the entry of the key itself
      rw [keys_append, keys_cons, hrk] at hnd
      have hnotin : k ∉ keys l := fun h ↦ (List.nodup_append'.mp hnd).2.2 h List.mem_cons_self
      rw [hval r (by simp), hrk] at hr
      rw [remove_of_notMem hnotin]
      omega
    · rw [remove_cons_ne hrk] at hp
      obtain ⟨a, p, rfl⟩ := List.exists_cons_of_ne_nil hne
      obtain ⟨rfl, -⟩ := List.cons_prefix_cons.mp hp
      rw [total_cons]
      omega

/-- **One fetch** moves the key to the front of the keys that are kept. -/
theorem fetch_recent (ks : List κ) (k : κ) :
    (fetch (exact size maxmem) f (evict (fitting size maxmem) (recent size maxmem f ks)) k).1
      = evict (fitting size maxmem) (recent size maxmem f (ks ++ [k])) := by
  have hnd : (keys (recent size maxmem f ks)).Nodup := nodup_keys_recent ks
  have hkept := evict_isPrefix (fitting size maxmem) (recent size maxmem f ks)
  have hfits : total size (evict (fitting size maxmem) (recent size maxmem f ks)) ≤ maxmem :=
    of_decide_eq_true (fits_evict fitting_nil _)
  by_cases hk : size (f k) ≤ maxmem
  · have halone : fitting size maxmem [(k, f k)] = true :=
      decide_eq_true (by simpa using hk)
    rw [recent_concat hk, evict_cons halone, evict_remove_recent ks k]
    generalize evict (fitting size maxmem) (recent size maxmem f ks) = l at *
    cases hfind : find k l with
    | none =>
      have hadm : (exact size maxmem).admits (κ := κ) (f k) = true := decide_eq_true hk
      rw [fetch_of_none hfind, put, if_pos hadm]
      refine congrArg _ (evict_congr fun p _ ↦ ?_)
      simp only [exact, fitting, total_cons, Nat.add_comm]
    | some v =>
      have hmem := mem_of_find hfind
      obtain rfl : v = f k := snd_of_mem_recent (hkept.subset hmem)
      rw [fetch_of_find hfind, touch_of_some hfind, evict_of_fits]
      have hnd' : (keys l).Nodup := hnd.sublist (keys_sublist hkept.sublist)
      exact decide_eq_true ((total_perm (perm_cons_remove hnd' hmem)).trans_le hfits)
  · rw [recent_concat_of_lt (not_le.mp hk)]
    -- the value is refused, and nothing was stored for the key
    have hnotin : k ∉ keys (evict (fitting size maxmem) (recent size maxmem f ks)) := by
      intro hmem
      exact hk (mem_keys_recent.mp ((keys_sublist hkept.sublist).subset hmem)).2
    have hadm : (exact size maxmem).admits (κ := κ) (f k) ≠ true := by simpa [exact] using hk
    rw [fetch_of_none (find_eq_none_iff.mpr hnotin), put, if_neg hadm, remove_of_notMem hnotin]

theorem fetchAll_entries (ks : List κ) :
    (fetchAll (exact size maxmem) f [] ks).1
      = evict (fitting size maxmem) (recent size maxmem f ks) := by
  induction ks using List.reverseRecOn with
  | nil => rfl
  | append_singleton ks k ih => rw [fetchAll_concat, ih, fetch_recent]

theorem fetch_value (ks : List κ) (k : κ) :
    fetch (exact size maxmem) f (fetchAll (exact size maxmem) f [] ks).1 k
      = ((fetchAll (exact size maxmem) f [] (ks ++ [k])).1, f k,
          decide (k ∈ keys (fetchAll (exact size maxmem) f [] ks).1)) := by
  rw [fetchAll_concat]
  refine Prod.ext rfl ?_
  rw [fetchAll_entries]
  cases hfind : find k (evict (fitting size maxmem) (recent size maxmem f ks)) with
  | none =>
    rw [fetch_of_none hfind, decide_eq_false (find_eq_none_iff.mp hfind)]
  | some v =>
    have hmem := mem_of_find hfind
    rw [fetch_of_find hfind, decide_eq_true (mem_keys_of_mem hmem)]
    exact congrArg (·, true) (snd_of_mem_recent ((evict_isPrefix _ _).subset hmem))

/-! ## Which keys are found -/

/-- The bytes of the values of the keys fetched since, the key's own included. -/
def reuse (size : ν → ℕ) (maxmem : ℕ) (f : κ → ν) (k : κ) (since : List κ) : ℕ :=
  ∑ a ∈ insert k (since.filter fun a ↦ size (f a) ≤ maxmem).toFinset, size (f a)

theorem reuse_eq {since : List κ} (hk : k ∉ since) :
    reuse size maxmem f k since = size (f k) + total size (recent size maxmem f since) := by
  have hnotin : k ∉ (since.filter fun a ↦ size (f a) ≤ maxmem).toFinset := by
    rw [List.mem_toFinset]
    exact fun h ↦ hk (List.mem_filter.mp h).1
  have hdedup : (since.filter fun a ↦ size (f a) ≤ maxmem).dedup.toFinset
      = (since.filter fun a ↦ size (f a) ≤ maxmem).toFinset := by
    ext a
    rw [List.mem_toFinset, List.mem_toFinset, List.mem_dedup]
  rw [reuse, Finset.sum_insert hnotin, total, recent, List.map_map, List.map_reverse,
    List.sum_reverse, ← hdedup, List.sum_toFinset _ (List.nodup_dedup _)]
  rfl

theorem recent_append {post : List κ} (pre : List κ) (hadm : size (f k) ≤ maxmem) (hk : k ∉ post) :
    ∃ older, recent size maxmem f (pre ++ k :: post)
      = recent size maxmem f post ++ (k, f k) :: older := by
  obtain ⟨older, -, hunion⟩ := List.sublist_suffix_of_union
    (pre.filter fun a ↦ size (f a) ≤ maxmem)
    (k :: post.filter fun a ↦ size (f a) ≤ maxmem).dedup
  have hnotin : k ∉ post.filter fun a ↦ size (f a) ≤ maxmem :=
    fun h ↦ hk (List.mem_filter.mp h).1
  refine ⟨older.reverse.map fun a ↦ (a, f a), ?_⟩
  rw [recent, List.filter_append, List.filter_cons_of_pos (by simpa using hadm),
    List.dedup_append, ← hunion, List.dedup_cons_of_notMem hnotin, List.reverse_append,
    List.reverse_cons, List.append_assoc, List.map_append, List.map_append]
  rfl

omit [DecidableEq κ] in
theorem exists_last (hk : k ∈ ks) : ∃ pre since, ks = pre ++ k :: since ∧ k ∉ since := by
  obtain ⟨since, pre, hsplit, hnotin⟩ := List.eq_append_cons_of_mem (List.mem_reverse.mpr hk)
  refine ⟨pre.reverse, since.reverse, ?_, fun h ↦ hnotin (List.mem_reverse.mp h)⟩
  rw [← List.reverse_reverse ks, hsplit, List.reverse_append, List.reverse_cons,
    List.append_assoc, List.singleton_append]

/-- **Reuse distance.** A key is found exactly when the values of the distinct keys fetched since
it was, its own included, fit the limit. -/
theorem mem_keys_fetchAll_iff {pre post : List κ} (hk : k ∉ post) :
    k ∈ keys (fetchAll (exact size maxmem) f [] (pre ++ k :: post)).1 ↔
      reuse size maxmem f k post ≤ maxmem := by
  rw [fetchAll_entries, reuse_eq hk]
  by_cases hadm : size (f k) ≤ maxmem
  · obtain ⟨older, hrecent⟩ := recent_append pre hadm hk
    have hnd : (keys (recent size maxmem f (pre ++ k :: post))).Nodup := nodup_keys_recent _
    rw [hrecent] at hnd ⊢
    exact (mem_keys_evict_iff hnd).trans (by rw [Nat.add_comm])
  · refine iff_of_false (fun hmem ↦ ?_) (by omega)
    have hkept := (evict_isPrefix (fitting size maxmem)
      (recent size maxmem f (pre ++ k :: post))).sublist
    exact hadm (mem_keys_recent.mp ((keys_sublist hkept).subset hmem)).2

theorem notMem_keys_fetchAll (hk : k ∉ ks) :
    k ∉ keys (fetchAll (exact size maxmem) f [] ks).1 := by
  rw [fetchAll_entries]
  intro hmem
  exact hk (mem_keys_recent.mp
    ((keys_sublist (evict_isPrefix (fitting size maxmem) _).sublist).subset hmem)).1

/-- **Inclusion.** Where the smaller limit admits all that is fetched, a larger one finds every key
that the smaller one finds. -/
theorem mem_keys_fetchAll_mono {maxmem' : ℕ} (hle : maxmem ≤ maxmem')
    (hadm : ∀ a ∈ ks, size (f a) ≤ maxmem)
    (hmem : k ∈ keys (fetchAll (exact size maxmem) f [] ks).1) :
    k ∈ keys (fetchAll (exact size maxmem') f [] ks).1 := by
  have hrecent : recent size maxmem' f ks = recent size maxmem f ks := by
    rw [recent, recent, List.filter_eq_self.mpr, List.filter_eq_self.mpr]
    · exact fun a ha ↦ decide_eq_true (hadm a ha)
    · exact fun a ha ↦ decide_eq_true ((hadm a ha).trans hle)
  rw [fetchAll_entries] at hmem ⊢
  rw [hrecent]
  have hfits : fitting size maxmem' (evict (fitting size maxmem) (recent size maxmem f ks))
      = true := decide_eq_true ((of_decide_eq_true (fits_evict fitting_nil _)).trans hle)
  have hkept := prefix_evict (evict_isPrefix (fitting size maxmem) _) hfits
  exact (keys_sublist hkept.sublist).subset hmem

theorem fetchAll_mono {maxmem' : ℕ} (hle : maxmem ≤ maxmem')
    (hadm : ∀ a ∈ ks, size (f a) ≤ maxmem) :
    List.Forall₂ (fun r r' ↦ r.1 = r'.1 ∧ (r.2 = true → r'.2 = true))
      (fetchAll (exact size maxmem) f [] ks).2 (fetchAll (exact size maxmem') f [] ks).2 := by
  induction ks using List.reverseRecOn with
  | nil => exact List.Forall₂.nil
  | append_singleton ks k ih =>
    have hks : ∀ a ∈ ks, size (f a) ≤ maxmem := fun a ha ↦ hadm a (List.mem_append_left _ ha)
    rw [fetchAll_concat, fetchAll_concat, fetch_value, fetch_value]
    refine List.rel_append (ih hks) (List.Forall₂.cons ⟨rfl, fun h ↦ ?_⟩ List.Forall₂.nil)
    exact decide_eq_true (mem_keys_fetchAll_mono hle hks (of_decide_eq_true h))

/-! ## Counting with a machine word -/

section Word

variable {size : ν → UInt32} {maxmem : UInt64} {l : List (κ × ν)}
  (hmax : maxmem.toNat ≤ 2 ^ 64 - 2 ^ 32)
include hmax

theorem fetch_word_eq (hl : total (fun v ↦ (size v).toNat) l ≤ maxmem.toNat) (k : κ) :
    fetch (word size maxmem) f l k = fetch (exact (fun v ↦ (size v).toNat) maxmem.toNat) f l k := by
  cases hfind : find k l with
  | none => rw [fetch_of_none hfind, fetch_of_none hfind, put_word_eq hmax hl]
  | some v => rw [fetch_of_find hfind, fetch_of_find hfind]

omit hmax in
theorem total_fetch_le {size : ν → ℕ} {maxmem : ℕ} (hl : total size l ≤ maxmem) (k : κ) :
    total size (fetch (exact size maxmem) f l k).1 ≤ maxmem := by
  cases hfind : find k l with
  | none =>
    rw [fetch_of_none hfind]
    exact total_put_le hl
  | some v =>
    rw [fetch_of_find hfind]
    exact total_touch_le.trans hl

theorem fetchAll_word_eq (hl : total (fun v ↦ (size v).toNat) l ≤ maxmem.toNat) (ks : List κ) :
    fetchAll (word size maxmem) f l ks
      = fetchAll (exact (fun v ↦ (size v).toNat) maxmem.toNat) f l ks := by
  induction ks generalizing l with
  | nil => rfl
  | cons k ks ih => rw [fetchAll, fetchAll, fetch_word_eq hmax hl, ih (total_fetch_le hl k)]

end Word

end Lru

end NetCache
