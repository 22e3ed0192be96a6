import NetCache.Client.Framing

/-!
# The networked client and the cache in process

A program of calls over the network, delivered in program order, against the same program on a cache
in the process.

## Agreement

The two are used through the same header, so a program should not be able to tell which one it has.
`Agrees` compares one answer with the other: a `cache_get` misses when it should, and finds the same
text with its `NUL` when it should. The size that is reported is not compared; over the network it
leaves the `NUL` out.

## When they agree

They answer alike unless a `cache_delete` is cut off before a `cache_get` (`run_agrees_iff`). From
the delete on there is no server, and a `cache_get` waits for a reply that does not come. All other
calls return nothing, so a program that makes no further `cache_get` does not notice: that is why
the condition, `Safe`, is about the order of calls and not only about which calls there are.

## The whole program

A program starts with `create_cache` on a server that may have any limit and no entries, and the two
caches then have the limit of the program.
-/

namespace NetCache

open Text

namespace Client

variable {lib : JsonLib} {maxmem : UInt64} {hFn : Option (CStr → UInt64)}
  {calls : List (Lru.Call CStr Value)} {sent : List (Lru.Call CStr Value × Delivery)}

/-- An answer over the network agrees with one in the process: a `cache_get` misses when it should,
and finds the same text with its `NUL` when it should. -/
def Agrees (answer : Option Answer) : CacheObj.Answer → Prop
  | .void => True
  | .value none _ => answer = some (.text none 0)
  | .value (some b) _ => ∃ t : CStr, b = t.bytes ++ [0] ∧
      answer = some (.text (some t) (UInt32.ofNat t.bytes.length))

/-- No `cache_get` comes after a `cache_delete` that is cut off. -/
def Safe (calls : List (Lru.Call CStr Value)) : Prop :=
  calls.Pairwise fun call later ↦
    ∀ key key', call = .delete key → later = .get key' → ¬ CutOff key

/-! ## Runs -/

theorem agrees_ofReply {r : Lru.Reply Value}
    (h : ∀ v, r = .hit v → ∃ t, Server.PlainText t ∧ v.bytes = t ++ [0]) :
    Agrees (some (Answer.ofReply r)) (CacheObj.Answer.ofReply r) := by
  cases r with
  | done => trivial
  | miss => rfl
  | hit v =>
    obtain ⟨t, ht, hv⟩ := h v rfl
    have hbytes : (CStr.ofBytes v.bytes).bytes = t := by
      rw [hv]
      exact CStr.bytes_ofBytes_append ht.nul_free
    exact ⟨CStr.ofBytes v.bytes, by rw [hbytes, hv], rfl⟩

/-- A server that is gone stays gone, and only the calls without an answer do not notice. -/
theorem perform_none (lib : JsonLib) (C : Lru.Capacity CStr Value) (l : List (CStr × Value))
    (d : Delivery) (call : Lru.Call CStr Value) : (perform lib none d call).1 = none ∧
      (Agrees (perform lib none d call).2 (CacheObj.Answer.ofReply (Lru.step C l call).2) ↔
        ∀ key, call ≠ .get key) := by
  cases call with
  | set key v =>
    refine ⟨?_, iff_of_true trivial (by simp)⟩
    rw [perform]
    split <;> rfl
  | get key =>
    rw [perform_get_none]
    refine ⟨rfl, iff_of_false ?_ (by simp)⟩
    intro h
    rw [Lru.step_get] at h
    cases hfind : Lru.find key l <;> simp [hfind, CacheObj.Answer.ofReply, Agrees] at h
  | delete key => exact ⟨rfl, iff_of_true trivial (by simp)⟩

theorem forall₂_agrees_none (C : Lru.Capacity CStr Value) (l : List (CStr × Value)) :
    List.Forall₂ Agrees (run lib none sent).2
        ((Lru.run C l (sent.map Prod.fst)).2.map CacheObj.Answer.ofReply) ↔
      ∀ call ∈ sent.map Prod.fst, ∀ key, call ≠ .get key := by
  induction sent generalizing l with
  | nil => simp [run]
  | cons cd sent ih =>
    obtain ⟨call, d⟩ := cd
    obtain ⟨hgone, hagrees⟩ := perform_none lib C l d call
    rw [List.map_cons, Lru.run_cons, List.map_cons, run_cons, hgone, List.forall₂_cons, hagrees,
      ih, List.forall_mem_cons]

theorem safe_cons {call : Lru.Call CStr Value} : Safe (call :: calls) ↔
    (∀ key, call = .delete key → CutOff key → ∀ later ∈ calls, ∀ key', later ≠ .get key') ∧
      Safe calls := by
  rw [Safe, List.pairwise_cons]
  refine and_congr_left fun _ ↦ ⟨?_, ?_⟩
  · intro h key hcall hcut later hlater key' hget
    exact h later hlater key key' hcall hget hcut
  · intro h later hlater key key' hcall hget hcut
    exact h key hcall hcut later hlater key' hget

theorem safe_of_forall_ne_get (h : ∀ call ∈ calls, ∀ key, call ≠ .get key) : Safe calls :=
  List.pairwise_of_forall_mem_list fun _ _ later hlater _ key' _ hget ↦
    absurd hget (h later hlater key')

/-- A program that runs from contents of its own answers as the store does, exactly when it is
safe. -/
theorem forall₂_agrees_run (hlib : lib.Conforming) (hdom : InDomain calls) {s : Server.State}
    {c : Server.Contents} (hs : Server.Keeps s.port (some c)) (hst : StoredBy calls c.entries)
    (hsub : ∀ cd ∈ sent, cd.1 ∈ calls) (hcomplete : ∀ cd ∈ sent, cd.2.Complete cd.1) :
    List.Forall₂ Agrees (run lib (some s) sent).2
        ((Lru.run (Lru.word Value.size c.limit) c.entries (sent.map Prod.fst)).2.map
          CacheObj.Answer.ofReply) ↔ Safe (sent.map Prod.fst) := by
  induction sent generalizing s c with
  | nil => simp [run, Safe]
  | cons cd sent ih =>
    obtain ⟨call, d⟩ := cd
    have hmem := hsub _ List.mem_cons_self
    have hd := hcomplete _ List.mem_cons_self
    have hsub' := fun cd hcd ↦ hsub cd (List.mem_cons_of_mem _ hcd)
    have hcomplete' := fun cd hcd ↦ hcomplete cd (List.mem_cons_of_mem _ hcd)
    rw [List.map_cons, Lru.run_cons, List.map_cons, run_cons, List.forall₂_cons, safe_cons]
    by_cases hcut : ∃ key, call = .delete key ∧ CutOff key
    · -- the server is gone, and nothing but a `cache_get` shows it
      obtain ⟨key, rfl, hcut⟩ := hcut
      rw [perform_delete_cutOff hs hcut hd, forall₂_agrees_none]
      constructor
      · rintro ⟨-, hgets⟩
        exact ⟨fun _ _ _ ↦ hgets, safe_of_forall_ne_get hgets⟩
      · rintro ⟨hgets, -⟩
        exact ⟨trivial, hgets key rfl hcut⟩
    · replace hcut : ∀ key, call = .delete key → ¬ CutOff key := fun key hcall hkey ↦
        hcut ⟨key, hcall, hkey⟩
      obtain ⟨s', hperform, hs'⟩ := perform_eq hlib hdom hs hst hmem hd hcut
      have htail := ih hs' (hst.step hmem) hsub' hcomplete'
      rw [hperform]
      refine and_congr (iff_of_true (agrees_ofReply fun v hv ↦ ?_)
        fun key hcall hkey ↦ absurd hkey (hcut key hcall)) htail
      obtain ⟨key, hfind⟩ := Lru.find_of_hit hv
      exact hdom.value _ _ (hst _ (Lru.mem_of_find hfind))

/-! ## The whole program -/

theorem serve_createCache {s : Server.State} {c : Server.Contents}
    (hs : Server.Keeps s.port (some c)) (hempty : c.entries = []) (hmax : maxmem.toNat < 2 ^ 63)
    {pieces : List Bytes} (hpieces : pieces.flatten = createCache maxmem) :
    ∃ s', (serve (some s) (.stream pieces)).1 = some s' ∧
      Server.Keeps s'.port (some ⟨maxmem, []⟩) := by
  have hused : c.spaceUsed = 0 := by rw [Server.Contents.spaceUsed, hempty]; rfl
  have hact := act_createCache hused hpieces
  rw [if_pos hmax] at hact
  obtain ⟨s', hserve, hs'⟩ := serve_stream hs hact
  exact ⟨s', by rw [hserve], hs'⟩

section Samples

/-- The delivery of a call in one piece. -/
def whole (call : Lru.Call CStr Value) : Delivery where
  pieces := (streamOfCall call).toList
  buffer := Server.filled 0

theorem complete_whole {call : Lru.Call CStr Value}
    (hshort : ∀ key, call = .get key → key.bytes.length ≤ 65501) :
    (whole call).Complete call where
  stream stream hstream := by
    have hpieces : (whole call).pieces = [stream] := congrArg Option.toList hstream
    rw [hpieces, List.flatten_singleton]
  datagram key hget := by
    rw [length_getRequest]
    exact Nat.add_le_add_right (hshort key hget) 6

/-- The calls of a program, each delivered in one piece. -/
def sendAll (calls : List (Lru.Call CStr Value)) : List (Lru.Call CStr Value × Delivery) :=
  calls.map fun call ↦ (call, whole call)

theorem complete_sendAll (hshort : ∀ key, .get key ∈ calls → key.bytes.length ≤ 65501) :
    ∀ cd ∈ sendAll calls, cd.2.Complete cd.1 := by
  rw [sendAll, List.forall_mem_map]
  rintro call hcall
  exact complete_whole fun key hget ↦ hshort key (hget ▸ hcall)

/-- The text `hi` with its `NUL`. -/
def hiText : Value := ⟨ascii "hi" ++ [0], by decide⟩

theorem inDomain_of_hiText
    (hkey : ∀ call ∈ calls, Server.PlainKey call.key ∧ call.key.bytes.length = 1)
    (hset : ∀ key v, .set key v ∈ calls → v = hiText) : InDomain calls := by
  refine ⟨fun call hcall ↦ (hkey call hcall).1, ?_, ?_⟩
  · intro key v hmem
    rw [hset key v hmem]
    exact ⟨ascii "hi", ⟨by decide, by decide⟩, rfl⟩
  · intro call hcall key v hmem t ht
    have hlen := congrArg List.length ht
    have hbytes : hiText.bytes.length = 3 := rfl
    rw [hset key v hmem, List.length_append, List.length_singleton, hbytes] at hlen
    rw [(hkey call hcall).2, bufsize]
    omega

theorem plainKey_aKey : Server.PlainKey CacheObj.aKey := ⟨⟨by decide, by decide⟩, by decide⟩

/-- A short program. -/
def shortProgram : List (Lru.Call CStr Value) :=
  [.set CacheObj.aKey hiText, .get CacheObj.aKey, .delete CacheObj.aKey, .get CacheObj.aKey]

theorem inDomain_shortProgram : InDomain shortProgram := by
  refine inDomain_of_hiText ?_ (by simp [shortProgram])
  have hlen : CacheObj.aKey.bytes.length = 1 := rfl
  simp [shortProgram, Lru.Call.key, plainKey_aKey, hlen]

theorem complete_shortProgram : ∀ cd ∈ sendAll shortProgram, cd.2.Complete cd.1 := by
  refine complete_sendAll ?_
  have hlen : CacheObj.aKey.bytes.length = 1 := rfl
  simp only [shortProgram, List.mem_cons, reduceCtorEq, Lru.Call.get.injEq, List.not_mem_nil,
    or_false, false_or, or_self]
  rintro key rfl
  omega

/-- A program that stores nothing, with the shortest key whose `cache_delete` is cut off. -/
def longProgram : List (Lru.Call CStr Value) :=
  [.delete (letters 4294967288), .get (letters 1)]

theorem inDomain_longProgram : InDomain longProgram := by
  refine ⟨?_, by simp [longProgram], by simp [longProgram]⟩
  simp [longProgram, Lru.Call.key, plainKey_letters]

end Samples

/-- **The client agrees with the cache in process** exactly when the program is safe. -/
theorem run_agrees_iff (hlib : lib.Conforming) {s : Server.State} (hs : Server.Reachable s)
    {old : CacheObj} (hport : s.port = some old) (hempty : old.numElements = 0)
    (hmax : maxmem.toNat < 2 ^ 63) (hFn : Option (CStr → UInt64)) {pieces : List Bytes}
    (hpieces : pieces.flatten = createCache maxmem)
    (sent : List (Lru.Call CStr Value × Delivery)) (hdom : InDomain (sent.map Prod.fst))
    (hcomplete : ∀ cd ∈ sent, cd.2.Complete cd.1) :
    ∃ cache answers,
      (CacheObj.createCache maxmem hFn).run (sent.map Prod.fst) = some (cache, answers) ∧
      (List.Forall₂ Agrees (run lib (serve (some s) (.stream pieces)).1 sent).2 answers ↔
        Safe (sent.map Prod.fst)) := by
  obtain ⟨cache, l, hrun, -, -⟩ := (CacheObj.rep_createCache maxmem hFn).run (sent.map Prod.fst)
  obtain ⟨c, hc⟩ := hs.keeps
  have hnone : c.entries = [] := by
    obtain ⟨cache', l', hport', hr, hl⟩ := hc
    obtain rfl := Option.some.inj (hport.symm.trans hport')
    rw [← hl, List.length_eq_zero_iff.mp (hr.count.symm.trans hempty), List.map_nil]
  obtain ⟨s', hserve, hs'⟩ := serve_createCache hc hnone hmax hpieces
  refine ⟨cache, _, hrun, ?_⟩
  rw [hserve]
  exact forall₂_agrees_run hlib hdom hs' (by simp [StoredBy])
    (fun cd hcd ↦ List.mem_map_of_mem hcd) hcomplete

theorem run_agrees_iff_example : ∃ cache answers,
    (CacheObj.createCache 100 none).run shortProgram = some (cache, answers) ∧
      (List.Forall₂ Agrees (run plainJson (serve (some (Server.start 7 (Server.filled 0)))
          (.stream [createCache 100])).1 (sendAll shortProgram)).2 answers ↔
        Safe shortProgram) :=
  run_agrees_iff conforming_plainJson (.start 7 _) rfl rfl (by decide : (100 : UInt64).toNat < _)
    none List.flatten_singleton (sendAll shortProgram) inDomain_shortProgram complete_shortProgram

/-- A `cache_delete` that is cut off leaves the next `cache_get` without an answer. -/
theorem longProgram_disagrees :
    InDomain longProgram ∧ (∀ cd ∈ sendAll longProgram, cd.2.Complete cd.1) ∧
      ∃ cache,
        (CacheObj.createCache 100 none).run longProgram = some (cache, [.void, .value none 0]) ∧
          (run plainJson (serve (some (Server.start 7 (Server.filled 0)))
              (.stream [createCache 100])).1 (sendAll longProgram)).2 = [some .void, none] ∧
          ¬ List.Forall₂ Agrees [some .void, none] [.void, .value none 0] := by
  have hcut : CutOff (letters 4294967288) := by
    rw [CutOff, length_letters]
    decide
  have hs : Server.Keeps (Server.start 7 (Server.filled 0)).port
      (some ⟨(7 : Int32).toInt64.toUInt64, []⟩) := Server.keeps_createCache _
  obtain ⟨cache, l, hrun, -, -⟩ := (CacheObj.rep_createCache 100 none).run longProgram
  obtain ⟨s', hserve, hs'⟩ := serve_createCache hs rfl (by decide)
    (List.flatten_singleton (l := createCache 100))
  have hshort : ∀ key, .get key ∈ longProgram → key.bytes.length ≤ 65501 := by
    simp [longProgram, length_letters]
  refine ⟨inDomain_longProgram, complete_sendAll hshort, cache, hrun, ?_, by simp [Agrees]⟩
  rw [hserve, sendAll, longProgram, List.map_cons, run_cons,
    perform_delete_cutOff hs' hcut (complete_whole (by simp))]
  rfl

end Client

end NetCache
