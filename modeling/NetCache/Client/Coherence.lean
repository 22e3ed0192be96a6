import NetCache.Client.Clients
import NetCache.Lru.Residence

/-!
# What a `cache_get` of many clients can count on

Three guarantees, of which the first holds without any assumption on ports and limits, the second
needs both, and the third is about the network.

## Nothing stale is read

Nobody reads a value that has been replaced: what a `cache_get` returns was set for its key, and
nothing that sets or deletes the key was handled in between (`answers_latest`). That holds even if a
reply arrives in a socket it was not sent to, since the client compares the keys. It may then be the
value at an earlier time, as the reply may be to an earlier query.

## What was set is read

In the other direction, a value that was handled before the `cache_get` was made is still there if
the limit has room for the requests since (`answers_of_lastSet`). Each request brings at most one
buffer in front of the value. No client can lower the limit meanwhile: a limit is not taken while
space is used, and the value uses some.

## Whether it returns

Whether a `cache_get` returns at all depends on the network, which may lose its datagram or the
reply, and on the server, which anybody may stop. `can_return_iff` says exactly when a waiting
client can still get an answer: its datagram is on its way to a server that runs, or the reply is on
its way back. The datagram is sent once, and the receive time-out does not end the wait.
-/

namespace NetCache

open Text

namespace Client

variable {lib : JsonLib} {calls : List (Lru.Call CStr Value)} {c c' : Server.Contents}
  {maxmem : Int32} {recbuf : BufArr} {history : List (Service.Request Command CStr)}
  {r : Service.Request Command CStr} {key : CStr} {v : Value} {j k n : ℕ}

/-! ## The last set -/

/-- The request at place `j` sets the key to the value, and none before place `k` sets or deletes
the key again. -/
structure LastSet (history : List (Service.Request Command CStr)) (key : CStr) (v : Value)
    (j k : ℕ) : Prop where
  /-- The set. -/
  set : history[j]? = some (.post (.set key v))
  /-- It comes first. -/
  lt : j < k
  /-- Nothing drops the value. -/
  stays : ∀ m call, j < m → m < k → history[m]? = some (requestOf call) → ¬ call.Drops key

theorem requestOf_injective : Function.Injective requestOf := by
  intro call call' h
  cases call <;> cases call' <;> simp_all [requestOf]

theorem requestOf_ne_create (call : Lru.Call CStr Value) (maxmem : UInt64) :
    requestOf call ≠ .post (.create maxmem) := by
  cases call <;> simp [requestOf]

theorem LastSet.concat (h : LastSet history key v j history.length)
    (hr : ∀ call, r = requestOf call → ¬ call.Drops key) :
    LastSet (history ++ [r]) key v j (history ++ [r]).length where
  set := Service.getElem?_of_isPrefix (List.prefix_append ..) h.set
  lt := by
    rw [List.length_append]
    exact h.lt.trans_le (Nat.le_add_right ..)
  stays m call hjm _ hm := by
    rcases Service.getElem?_concat_eq_some_iff.mp hm with hm | ⟨-, hcall⟩
    · exact h.stays m call hjm (List.getElem?_eq_some_iff.mp hm).1 hm
    · exact hr call hcall

theorem lastSet_concat (history : List (Service.Request Command CStr)) (key : CStr) (v : Value) :
    LastSet (history ++ [requestOf (.set key v)]) key v history.length
      (history ++ [requestOf (.set key v)]).length where
  set := List.getElem?_concat_length
  lt := by simp
  stays m call hjm hlt _ := by
    rw [List.length_append, List.length_singleton] at hlt
    omega

theorem LastSet.of_take (h : LastSet (history.take k) key v j k) : LastSet history key v j k where
  set := by
    rw [← List.getElem?_take_of_lt h.lt]
    exact h.set
  lt := h.lt
  stays m call hjm hlt hm := h.stays m call hjm hlt (by rwa [List.getElem?_take_of_lt hlt])

theorem LastSet.of_le (h : LastSet history key v j n) (hjk : j < k) (hk : k ≤ n) :
    LastSet history key v j k where
  set := h.set
  lt := hjk
  stays m call hjm hlt hm := h.stays m call hjm (hlt.trans_le hk) hm

/-- Every entry comes from the last set of its key. -/
theorem lastSet_of_after (hafter : after maxmem history = some c) {e : CStr × Value}
    (he : e ∈ c.entries) : ∃ j, LastSet history e.1 e.2 j history.length := by
  have hall : ∀ c, after maxmem history = some c → ∀ e ∈ c.entries,
      ∃ j, LastSet history e.1 e.2 j history.length := by
    refine store.run_induction (I := fun history t ↦ ∀ c, t = some c → ∀ e ∈ c.entries,
      ∃ j, LastSet history e.1 e.2 j history.length) ?_ ?_ history
    · intro c hc e he
      obtain rfl := Option.some.inj hc
      cases he
    · intro history t r ih c' hc' e he
      obtain ⟨c, rfl, hchanges⟩ := changes_of_next hc'
      cases hchanges with
      | refused maxmem hused =>
        obtain ⟨j, hj⟩ := ih c' rfl e he
        exact ⟨j, hj.concat fun call h ↦ absurd h.symm (requestOf_ne_create call maxmem)⟩
      | created maxmem hused hmax => cases he
      | call call =>
        rcases Lru.mem_step_cases he with ⟨hmem, hdrops⟩ | rfl
        · obtain ⟨j, hj⟩ := ih c rfl e hmem
          exact ⟨j, hj.concat fun call' h ↦ requestOf_injective h ▸ hdrops⟩
        · exact ⟨history.length, lastSet_concat history e.1 e.2⟩
  exact hall c hafter e he

/-! ## What is read was set -/

variable {ι : Type*} [DecidableEq ι] {Port : ℕ → ℕ → Prop} {net : Clients ι}

/-- **Nobody reads a value that has been replaced**, even if replies arrive in any socket: a
`cache_get` misses, or it returns the value of the last set of its key, as it was when some query
for the key was handled. -/
theorem answers_latest (hlib : lib.Conforming) (hdom : InDomain calls)
    (hruns : Runs lib calls Port maxmem recbuf net) : ∀ i, ∀ x ∈ net.returned i,
      ∃ a, net.asked[x.socket]? = some a ∧ (x.answer = some (.text none 0) ∨
        ∃ j k v, k < x.before ∧ net.history[k]? = some (.query a.query) ∧
          LastSet net.history a.query v j k ∧ x.answer = some (Answer.ofReply (.hit v))) := by
  have h := Runs.serialised hlib hdom hruns
  intro i x hx
  obtain ⟨a, m, k, reply, ha, hport, hlt, hexp, hreads⟩ := h.answers i x hx
  obtain ⟨b, c, hb, hsince, hk, hc, hanswer⟩ := answer_of_explains hexp hreads
  refine ⟨a, ha, ?_⟩
  by_cases hkey : a.query = b.query
  · rw [if_pos hkey, ← hkey, Lru.step_get] at hanswer
    cases hfind : Lru.find a.query c.entries with
    | none =>
      rw [hfind] at hanswer
      exact Or.inl hanswer
    | some v =>
      rw [hfind] at hanswer
      obtain ⟨j, hj⟩ := lastSet_of_after hc (Lru.mem_of_find hfind)
      rw [List.length_take_of_le (List.getElem?_eq_some_iff.mp hk).1.le] at hj
      exact Or.inr ⟨j, k, v, hlt, hkey ▸ hk, hj.of_take, hanswer⟩
  · rw [if_neg hkey] at hanswer
    exact Or.inl hanswer

/-- A reply may arrive in any socket. -/
def AnyPort (_m _n : ℕ) : Prop := True

theorem answers_latest_example : ∃ net : Clients Bool,
    net.returned true = [⟨0, 2, some (Answer.ofReply (.hit hiText))⟩] ∧
    ∀ i, ∀ x ∈ net.returned i,
      ∃ a, net.asked[x.socket]? = some a ∧ (x.answer = some (.text none 0) ∨
        ∃ j k v, k < x.before ∧ net.history[k]? = some (.query a.query) ∧
          LastSet net.history a.query v j k ∧ x.answer = some (Answer.ofReply (.hit v))) := by
  obtain ⟨net, hruns, -, -, hreturned⟩ := exists_runs (show AnyPort 0 0 from trivial)
    (by decide : 3 ≤ (100 : Int32).toInt64.toUInt64) (Server.filled 0)
  exact ⟨net, hreturned, answers_latest conforming_plainJson inDomain_sharedCalls hruns⟩

/-! ## What was set is read

`Near` says that the value is among the entries, with at most so many texts in front of it. A
request that does not drop the key adds one to the number at most, and the limit has room for all
of them. -/

theorem size_of_mem (hdom : InDomain calls) (hmem : .set key v ∈ calls) :
    v.size ≠ 0 ∧ v.size.toNat ≤ bufsize := by
  obtain ⟨t, -, hv⟩ := hdom.value key v hmem
  have hfits := hdom.fits _ hmem key v hmem t hv
  have hsize : v.size.toNat = t.length + 1 := by
    rw [Value.toNat_size, hv, List.length_append, List.length_singleton]
  refine ⟨fun hzero ↦ ?_, by omega⟩
  rw [hzero] at hsize
  exact absurd hsize (Nat.succ_ne_zero _).symm

/-- Contents that calls of the domain lead to. -/
structure Sound (calls : List (Lru.Call CStr Value)) (c : Server.Contents) : Prop where
  /-- The entries come from the calls. -/
  stored : StoredBy calls c.entries
  /-- No key is stored twice. -/
  nodup : (Lru.keys c.entries).Nodup
  /-- The values fit. -/
  total_le : Lru.total (fun v : Value ↦ v.size.toNat) c.entries ≤ c.limit.toNat
  /-- The limit is a signed number. -/
  limit_lt : c.limit.toNat < 2 ^ 63

theorem Sound.step_eq (h : Sound calls c) (call : Lru.Call CStr Value) :
    Lru.step (Lru.word Value.size c.limit) c.entries call
      = Lru.step (Lru.exact (fun v ↦ v.size.toNat) c.limit.toNat) c.entries call :=
  Lru.step_word_eq (h.limit_lt.le.trans (by decide)) h.total_le call

theorem Sound.spaceUsed_ne_zero (hdom : InDomain calls) (h : Sound calls c)
    (hne : c.entries ≠ []) : c.spaceUsed ≠ 0 := by
  have hsolid : c.Solid := ⟨fun e he ↦ (size_of_mem hdom (h.stored e he)).1, h.total_le⟩
  exact fun hused ↦ hne (hsolid.entries_eq_nil hused)

theorem mem_of_allowed {call : Lru.Call CStr Value} (h : Allowed calls (requestOf call)) :
    call ∈ calls := by
  cases call with
  | set key v => exact h
  | get key => exact h.1
  | delete key => exact h

theorem Changes.sound (hc : Changes c r c') (hallowed : Allowed calls r) (h : Sound calls c) :
    Sound calls c' := by
  cases hc with
  | refused maxmem hused => exact h
  | created maxmem hused hmax =>
    exact ⟨by simp [StoredBy], Lru.nodup_keys_nil, Nat.zero_le _, hmax⟩
  | call call =>
    refine ⟨h.stored.step (mem_of_allowed hallowed),
      Lru.nodup_keys_step h.nodup call, ?_, h.limit_lt⟩
    rw [Server.Contents.apply, h.step_eq]
    exact Lru.total_step_le h.total_le h.nodup call

theorem toNat_limit_lt (hmax : 0 ≤ maxmem) : maxmem.toInt64.toUInt64.toNat < 2 ^ 63 := by
  have hint : 0 ≤ maxmem.toInt64 := by
    rw [Int64.le_iff_toInt_le, Int32.toInt_toInt64]
    exact Int32.le_iff_toInt_le.mp hmax
  have hlt := Int32.toInt_lt maxmem
  rw [Int64.toNat_toUInt64_of_le hint, Int64.toNatClampNeg, Int32.toInt_toInt64]
  omega

theorem sound_of_after (hmax : 0 ≤ maxmem) (hallowed : ∀ r ∈ history, Allowed calls r)
    (hafter : after maxmem history = some c) : Sound calls c := by
  have hall : (∀ r ∈ history, Allowed calls r) → ∀ c, after maxmem history = some c →
      Sound calls c := by
    refine store.run_induction (I := fun history t ↦ (∀ r ∈ history, Allowed calls r) →
      ∀ c, t = some c → Sound calls c) ?_ ?_ history
    · rintro - c hc
      obtain rfl := Option.some.inj hc
      exact ⟨by simp [StoredBy], Lru.nodup_keys_nil, Nat.zero_le _, toNat_limit_lt hmax⟩
    · intro history t r ih hallowed c' hc'
      obtain ⟨c, rfl, hchanges⟩ := changes_of_next hc'
      rw [List.forall_mem_append, List.forall_mem_singleton] at hallowed
      exact hchanges.sound hallowed.2 (ih hallowed.1 c rfl)
  exact hall hallowed c hafter

/-- The value is stored for the key, with at most `n` texts in front of it. -/
def Near (c : Server.Contents) (key : CStr) (v : Value) (n : ℕ) : Prop :=
  ∃ above below, c.entries = above ++ (key, v) :: below ∧
    Lru.total (fun v : Value ↦ v.size.toNat) above ≤ n * bufsize

theorem near_set (h : Sound calls c) (hfits : v.size.toNat ≤ c.limit.toNat) :
    Near (c.apply (.set key v)) key v 0 := by
  have hadmits : (Lru.exact (fun v : Value ↦ v.size.toNat) c.limit.toNat).admits (κ := CStr) v
      = true := decide_eq_true hfits
  exact ⟨[], _, (congrArg Prod.fst (h.step_eq _)).trans (if_pos hadmits), Nat.zero_le _⟩

theorem bytes_le (hdom : InDomain calls) (h : Sound calls c) {call : Lru.Call CStr Value}
    (hmem : call ∈ calls) (C : Lru.Capacity CStr Value) :
    call.bytes (fun v : Value ↦ v.size.toNat) +
      (Lru.step C c.entries call).2.bytes (fun v : Value ↦ v.size.toNat) ≤ bufsize := by
  cases call with
  | set key v => exact (size_of_mem hdom hmem).2
  | get key =>
    rw [Lru.step_get]
    cases hfind : Lru.find key c.entries with
    | none => exact Nat.zero_le _
    | some v =>
      have hsize := (size_of_mem hdom (h.stored _ (Lru.mem_of_find hfind))).2
      exact (Nat.zero_add _).trans_le hsize
  | delete key => exact Nat.zero_le _

/-- A request that does not drop the key moves one text in front of it at most. -/
theorem Changes.near (hdom : InDomain calls) (h : Sound calls c) (hc : Changes c r c')
    (hallowed : Allowed calls r) (hr : ∀ call, r = requestOf call → ¬ call.Drops key)
    (hnear : Near c key v n) (hroom : (n + 2) * bufsize ≤ c.limit.toNat) :
    Near c' key v (n + 1) ∧ c'.limit = c.limit := by
  obtain ⟨above, below, hentries, habove⟩ := hnear
  cases hc with
  | refused maxmem hused =>
    exact ⟨⟨above, below, hentries, habove.trans (Nat.mul_le_mul_right _ (Nat.le_succ n))⟩, rfl⟩
  | created maxmem hused hmax =>
    refine absurd hused (h.spaceUsed_ne_zero hdom ?_)
    simp [hentries]
  | call call =>
    have hmem := mem_of_allowed hallowed
    have hsize : v.size.toNat ≤ bufsize :=
      (size_of_mem hdom (h.stored (key, v) (by simp [hentries]))).2
    have hbytes := bytes_le hdom h hmem
      (Lru.exact (fun v ↦ v.size.toNat) c.limit.toNat)
    have hnd := h.nodup
    rw [hentries] at hbytes hnd
    rw [Nat.add_mul] at hroom
    have hle : Lru.total (fun v : Value ↦ v.size.toNat) above +
        (call.bytes (fun v : Value ↦ v.size.toNat) +
          (Lru.step (Lru.exact (fun v ↦ v.size.toNat) c.limit.toNat) (above ++ (key, v) :: below)
            call).2.bytes (fun v : Value ↦ v.size.toNat)) + v.size.toNat ≤ c.limit.toNat := by
      omega
    obtain ⟨above', below', hstep, habove'⟩ := Lru.step_split hnd (hr call rfl) hle
    refine ⟨⟨above', below', ?_, by rw [Nat.add_mul]; omega⟩, rfl⟩
    rw [Server.Contents.apply, h.step_eq, hentries, hstep]

theorem after_take_succ (hr : history[k]? = some r) :
    after maxmem (history.take (k + 1)) = store.next (after maxmem (history.take k)) r := by
  obtain ⟨hlt, rfl⟩ := List.getElem?_eq_some_iff.mp hr
  rw [List.take_succ_eq_append_getElem hlt]
  exact store.run_concat ..

/-- A value that was set is followed through a history. -/
theorem near_of_lastSet (hdom : InDomain calls) (hmax : 0 ≤ maxmem)
    (hallowed : ∀ r ∈ history, Allowed calls r) (hset : LastSet history key v j k)
    (hk : k ≤ history.length) (hc : after maxmem (history.take j) = some c)
    (hroom : (k - j) * bufsize ≤ c.limit.toNat) (hn : j + 1 + n ≤ k)
    (hc' : after maxmem (history.take (j + 1 + n)) = some c') :
    Near c' key v n ∧ c'.limit = c.limit := by
  have hsound : ∀ {m c}, after maxmem (history.take m) = some c → Sound calls c := fun hm ↦
    sound_of_after hmax (fun r hr ↦ hallowed r (List.mem_of_mem_take hr)) hm
  have hbuffers : ∀ m ≤ k - j, m * bufsize ≤ c.limit.toNat := fun m hm ↦
    (Nat.mul_le_mul_right _ hm).trans hroom
  induction n generalizing c' with
  | zero =>
    rw [Nat.add_zero, after_take_succ hset.set, hc] at hc'
    obtain rfl := Option.some.inj hc'
    have hmem : .set key v ∈ calls := hallowed _ (List.mem_of_getElem? hset.set)
    have hone := hbuffers 1 (by omega)
    rw [Nat.one_mul] at hone
    exact ⟨near_set (hsound hc) ((size_of_mem hdom hmem).2.trans hone), rfl⟩
  | succ n ih =>
    have hget := List.getElem?_eq_getElem (show j + 1 + n < history.length by omega)
    rw [← Nat.add_assoc, after_take_succ hget] at hc'
    obtain ⟨c₁, hc₁, hchanges⟩ := changes_of_next hc'
    obtain ⟨hnear, hlimit⟩ := ih (by omega) hc₁
    obtain ⟨hnear', hlimit'⟩ := hchanges.near hdom (hsound hc₁)
      (hallowed _ (List.mem_of_getElem? hget))
      (fun call hcall ↦ hset.stays _ call (by omega) (by omega) (hget.trans (congrArg some hcall)))
      hnear (hlimit ▸ hbuffers (n + 2) (by omega))
    exact ⟨hnear', hlimit'.trans hlimit⟩

/-- **A value that was set is read** by every `cache_get` that is made after the set was handled, as
long as no request sets or deletes the key again and the limit has room for a buffer for each
request that is handled from the set to the return. Which other keys they use makes no difference,
nor does it which clients try to create caches. -/
theorem answers_of_lastSet (hlib : lib.Conforming) (hdom : InDomain calls)
    (hmax : 0 ≤ maxmem) (hruns : Runs lib calls Eq maxmem recbuf net) {i : ι}
    {x : Service.Returned (Option Answer)} (hx : x ∈ net.returned i) {a : Service.Asked CStr}
    (ha : net.asked[x.socket]? = some a)
    (hset : LastSet net.history a.query v j x.before) (hj : j < a.since)
    (hc : after maxmem (net.history.take j) = some c)
    (hroom : (x.before - j) * bufsize ≤ c.limit.toNat) :
    x.answer = some (Answer.ofReply (.hit v)) := by
  have h := Runs.serialised hlib hdom hruns
  have hallowed := h.history_domain
  obtain ⟨b, k, c', hb, hsince, hlt, hk, hc', hanswer⟩ := answer_of_serialised h hx
  obtain rfl := Option.some.inj (ha.symm.trans hb)
  obtain ⟨n, rfl⟩ := Nat.exists_eq_add_of_le (Nat.succ_le_of_lt (hj.trans_le hsince))
  obtain ⟨⟨above, below, hentries, -⟩, -⟩ := near_of_lastSet hdom hmax hallowed
    (hset.of_le (by omega) hlt.le) (List.getElem?_eq_some_iff.mp hk).1.le hc
    ((Nat.mul_le_mul_right _ (by omega)).trans hroom) le_rfl hc'
  have hsound := sound_of_after hmax (fun r hr ↦ hallowed r (List.mem_of_mem_take hr)) hc'
  have hfind : Lru.find a.query c'.entries = some v := by
    rw [Lru.find_eq_some_iff hsound.nodup, hentries]
    exact List.mem_append_right _ List.mem_cons_self
  rw [hanswer, Lru.step_get, hfind]
  rfl

theorem answers_of_lastSet_example : ∃ net : Clients Bool, ∃ x ∈ net.returned true,
    x.answer = some (Answer.ofReply (.hit hiText)) := by
  obtain ⟨net, hruns, hasked, hhistory, hreturned⟩ := exists_runs rfl
    (by decide : 3 ≤ (200000 : Int32).toInt64.toUInt64) (Server.filled 0)
  have hset : LastSet net.history CacheObj.aKey hiText 0 2 := by
    refine ⟨by rw [hhistory]; rfl, by decide, fun m call hjm hlt hm ↦ ?_⟩
    obtain rfl : m = 1 := by omega
    rw [hhistory] at hm
    obtain rfl : .get CacheObj.aKey = call := requestOf_injective (Option.some.inj hm)
    exact id
  have hmem : (⟨0, 2, some (Answer.ofReply (.hit hiText))⟩ : Service.Returned _)
      ∈ net.returned true := by
    rw [hreturned]
    exact List.mem_singleton_self _
  exact ⟨net, _, hmem, answers_of_lastSet conforming_plainJson inDomain_sharedCalls (by decide)
    hruns hmem (by rw [hasked]; rfl) hset (by decide) rfl (by decide)⟩

/-! ## Whether it returns -/

theorem gone_none : handler.Gone none where
  post _ _ := by
    rintro ⟨s, -, -, hs, -⟩
    cases hs
  query _ _ _ := by
    rintro ⟨s, hs, -⟩
    cases hs

theorem returns_of_reply (hlib : lib.Conforming) (hdom : InDomain calls)
    (hruns : Runs lib calls Eq maxmem recbuf net) {i : ι}
    {reply : Service.Reply (Option Bytes)} (hreply : reply ∈ net.replies)
    (hwaiting : net.waiting i = some reply.socket) :
    ∃ net', Service.Step handler (Allowed calls) Eq (Reads lib) net net' ∧
      net'.waiting i = none := by
  obtain ⟨a, ha⟩ := Service.Reaches.exists_asked hruns hwaiting
  obtain ⟨b, -, -, -, message, r, hmessage, -, htells⟩ :=
    (Runs.serialised hlib hdom hruns).replies reply hreply
  have hsent := length_le_of_receiveAnswer (htells a.query (Server.filled 0))
  obtain ⟨older, newer, hreplies⟩ := List.append_of_mem hreply
  exact ⟨_, .receive hwaiting ha hreplies rfl ⟨message, Server.filled 0, hmessage, hsent, rfl⟩,
    Function.update_self ..⟩

/-- **Whether a `cache_get` can return**: a client that waits for a reply can still get one exactly
when its datagram is on its way to a server that runs or the reply is on its way back. So after a
`destroy_cache` of anybody, or when the network has lost the datagram or the reply, it never
returns: nothing is sent again, and `SO_RCVTIMEO` does not end the wait, since `receive` polls the
socket again. -/
theorem can_return_iff (hlib : lib.Conforming) (hdom : InDomain calls)
    (hruns : Runs lib calls Eq maxmem recbuf net) {i : ι} {n : ℕ}
    (hwaiting : net.waiting i = some n) :
    (∃ net', Service.Reaches handler (Allowed calls) Eq (Reads lib) net net' ∧
        net'.waiting i = none) ↔
      net.service ≠ none ∧ n ∈ net.queries ∨ ∃ reply ∈ net.replies, reply.socket = n := by
  obtain ⟨a, ha⟩ := Service.Reaches.exists_asked hruns hwaiting
  constructor
  · rintro ⟨net', hreaches, hidle⟩
    by_contra hno
    obtain ⟨hquery, hreplies⟩ := not_or.mp hno
    have hunhandled : handler.Gone net.service ∨ n ∉ net.queries := by
      rcases not_and_or.mp hquery with hgone | hlost
      · exact Or.inl ((not_not.mp hgone).symm ▸ gone_none)
      · exact Or.inr hlost
    have hstuck : net.Stuck handler i n := ⟨hwaiting, (List.getElem?_eq_some_iff.mp ha).1,
      hunhandled, fun reply hreply heq ↦ hreplies ⟨reply, hreply, heq⟩⟩
    have hwaits := (Service.Reaches.stuck hstuck hreaches).waiting
    rw [hidle] at hwaits
    cases hwaits
  · rintro (⟨hservice, hmem⟩ | ⟨reply, hreply, rfl⟩)
    · -- the server handles the query, and then the client receives the reply
      obtain ⟨older, newer, hqueries⟩ := List.append_of_mem hmem
      obtain ⟨s, hs⟩ := Option.ne_none_iff_exists'.mp hservice
      have hquery : handler.query net.service a.query
          (serve (some s) (.datagram (getRequest a.query))).1
          (serve (some s) (.datagram (getRequest a.query))).2 := ⟨s, hs, rfl⟩
      have hstep : Service.Step handler (Allowed calls) Eq (Reads lib) net _ :=
        .handleQuery hqueries ha hquery
      obtain ⟨net', hstep', hidle⟩ := returns_of_reply hlib hdom (hruns.tail hstep)
        (List.mem_append_right _ (List.mem_singleton_self _)) hwaiting
      exact ⟨net', .tail (.single hstep) hstep', hidle⟩
    · obtain ⟨net', hstep, hidle⟩ := returns_of_reply hlib hdom hruns hreply hwaiting
      exact ⟨net', .single hstep, hidle⟩

theorem can_return_iff_example : ∃ net : Clients Bool, net.waiting true = some 0 ∧
    net.service ≠ none ∧
    ¬ ∃ net', Service.Reaches handler (Allowed sharedCalls) Eq (Reads plainJson) net net' ∧
      net'.waiting true = none := by
  -- one client asks, and the network loses its datagram
  have h₀ : Runs plainJson sharedCalls Eq 100 (Server.filled 0)
      (.start (some (Server.start 100 (Server.filled 0))) : Clients Bool) := .refl
  have h₁ := h₀.tail (.ask true rfl allowed_sharedGet)
  have h₂ := h₁.tail (.datagrams (List.nil_subset _) (List.Subset.refl _))
  refine ⟨_, rfl, Option.some_ne_none _,
    (can_return_iff conforming_plainJson inDomain_sharedCalls h₂ rfl).not.mpr ?_⟩
  rintro (⟨-, hquery⟩ | ⟨reply, hreply, -⟩)
  · cases hquery
  · cases hreply

end Client

end NetCache
